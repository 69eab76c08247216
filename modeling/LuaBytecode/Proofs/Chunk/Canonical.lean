import LuaBytecode.Proofs.Chunk.Field

namespace LuaBytecode

variable {present : List Bool} {data : Bytes} {c : Chunk} {i : Nat}

namespace Prototype

mutual

/-- Every text is shorter than the limit, and no function has too many upvalues, at every depth. -/
def Fits (limit : Nat) : Prototype → Prop
  | ⟨_, _, _, _, constants, upvalues, functions, source, _, _, _, localVariables, _⟩ =>
    source.length < limit ∧ (∀ s, .string s ∈ constants → s.length < limit) ∧
      (∀ v ∈ localVariables, v.name.length < limit) ∧ (∀ u ∈ upvalues, u.name.length < limit) ∧
      upvalues.length ≤ maxUpvalues ∧ AllFit limit functions

def AllFit (limit : Nat) : List Prototype → Prop
  | [] => True
  | f :: rest => f.Fits limit ∧ AllFit limit rest

end

lemma allFit_iff {limit : Nat} {fs : List Prototype} :
    AllFit limit fs ↔ ∀ f ∈ fs, f.Fits limit := by
  induction fs with
  | nil => simp [AllFit]
  | cons f fs ih => simp [AllFit, ih]

end Prototype

namespace Layout

open Reader

lemma mem_absentPlaces : i ∈ absentPlaces present ↔ present[i]? = some false := by
  simp only [absentPlaces, List.mem_filterMap, Prod.exists]
  constructor
  · rintro ⟨b, j, hm, hj⟩
    cases b with
    | true => simp at hj
    | false =>
      rw [List.mk_mem_zipIdx_iff_getElem?] at hm
      simp only [Bool.false_eq_true, if_false, Option.some.injEq] at hj
      rw [← hj, hm]
  · intro h
    exact ⟨false, i, List.mk_mem_zipIdx_iff_getElem?.mpr h, by simp⟩

lemma contains_absentPlaces {b : Bool} (h : present[i]? = some b) :
    (absentPlaces present).contains i = !b := by
  rw [Bool.eq_iff_iff, List.contains_iff_mem, mem_absentPlaces, h]
  simp

variable (l : Layout) {us : List UpvalueDescriptor}

lemma writeName_isSome (name : Option Bytes) :
    l.writeName (!name.isSome) (name.getD []) = l.writeOptional name := by
  cases name <;> simp [writeName, writeOptional]

lemma writeUpvalues_nameUpvalues {names : List (Option Bytes)}
    (h : names = [] ∨ names.length = us.length) :
    l.writeUpvalues (nameUpvalues us names) = l.writeUpvalues us := by
  have hz : ∀ {us : List UpvalueDescriptor} {names : List (Option Bytes)},
      names.length = us.length →
      (us.zipWith (fun u name => { u with name := name.getD [] }) names).flatMap
        (fun u => [flag u.inStack, u.index]) = us.flatMap (fun u => [flag u.inStack, u.index]) := by
    intro us
    induction us with
    | nil => simp
    | cons u us ih =>
      intro names hl
      cases names with
      | nil => simp at hl
      | cons name names =>
        simp only [List.length_cons, Nat.add_right_cancel_iff] at hl
        simp [ih hl]
  rw [nameUpvalues]
  split
  · rfl
  · next hne =>
    have hl : names.length = us.length := h.resolve_left (by simpa using hne)
    simp only [writeUpvalues, hz hl, List.length_zipWith, hl, Nat.min_self]

lemma writeOptional_eq_source (name : Option Bytes) {parent : ChunkName} {f : Prototype}
    (hs : f.source = name.getD parent)
    (hf : (f.form.getD .plain).sourceWritten = name.isSome) :
    l.writeOptional name = if sourceWritten parent f then l.writeString f.source else [0] := by
  cases name with
  | none => simp [sourceWritten, hf, hs, writeOptional]
  | some name => simp [sourceWritten, hf, hs, writeOptional]

lemma flatten_eq_flatMap {α : Type} {f : α → Bytes} {as : List α} {bs : List Bytes}
    (h : List.Forall₂ (fun a b => b = f a) as bs) : bs.flatten = as.flatMap f := by
  induction h with
  | nil => rfl
  | cons heq _ ih => rw [List.flatten_cons, List.flatMap_cons, heq, ih]

variable {n size : Nat} {s s' rest : Bytes} (hread : l.readCount size s = .ok (n, s'))

include hread

lemma takes_code {code : List Instruction}
    (h : times n (fun _ => l.readInstruction) s' = .ok (code, rest)) :
    ∃ b, s = b ++ rest ∧ l.writeCode code = .ok b := by
  obtain ⟨count, rfl, hc⟩ := l.takes_count _ hread
  obtain ⟨rfl, bs, rfl, ha⟩ := forall₂_of_times (fun _ => l.takes_instruction) h
  refine ⟨count ++ bs.flatten, by simp, ?_⟩
  rw [writeCode_eq_ok]
  exact ⟨count, hc, by rw [flatten_eq_flatMap ha]⟩

lemma takes_constants {ks : List Value} (h : times n l.readConstant s' = .ok (ks, rest))
    (hr : rest ≠ []) : (∀ t, .string t ∈ ks → t.length < l.sizeT.words - 1) ∧
      ∃ b, s = b ++ rest ∧ l.writeConstants ks = .ok b := by
  obtain ⟨count, rfl, hc⟩ := l.takes_count _ hread
  obtain ⟨rfl, bs, rfl, ha⟩ := forall₂_of_times_of (P := (· ≠ []))
    (fun i s v rest hok hne => l.takes_constant hok hne) h hr
  rw [List.forall₂_and_left] at ha
  refine ⟨fun t ht => ha.1 _ ht t rfl, count ++ bs.flatten, by simp, ?_⟩
  rw [writeConstants_eq_ok]
  exact ⟨count, bs, hc, ha.2, rfl⟩

lemma takes_upvalues (h : times n readUpvalue s' = .ok (us, rest)) (hr : rest ≠ []) :
    us.length = n ∧ (∀ u ∈ us, u.name = []) ∧
      ∃ b, s = b ++ rest ∧ l.writeUpvalues us = .ok b := by
  obtain ⟨count, rfl, hc⟩ := l.takes_count _ hread
  obtain ⟨rfl, bs, rfl, ha⟩ := forall₂_of_times_of (P := (· ≠ []))
    (fun i s u rest hok hne => takes_upvalue hok hne) h hr
  rw [List.forall₂_and_left] at ha
  refine ⟨rfl, ha.1, count ++ bs.flatten, by simp, ?_⟩
  rw [writeUpvalues_eq_ok]
  exact ⟨count, hc, by rw [flatten_eq_flatMap ha.2]⟩

lemma takes_lineInfo {lines : List Int64}
    (h : times n (fun _ => l.readInt) s' = .ok (lines, rest)) :
    ∃ b, s = b ++ rest ∧ l.writeLineInfo lines = .ok b := by
  obtain ⟨count, rfl, hc⟩ := l.takes_count _ hread
  obtain ⟨rfl, bs, rfl, ha⟩ := forall₂_of_times (fun _ => l.takes_int) h
  refine ⟨count ++ bs.flatten, by simp, ?_⟩
  rw [writeLineInfo_eq_ok]
  exact ⟨count, bs, hc, ha, rfl⟩

lemma takes_locals {vs : List (LocalVariable × Bool)}
    (h : times n l.readLocal s' = .ok (vs, rest)) :
    (∀ v ∈ vs, v.1.name.length < l.sizeT.words - 1) ∧ ∃ b, s = b ++ rest ∧
      l.writeLocals (absentPlaces (vs.map Prod.snd)) (vs.map Prod.fst) = .ok b := by
  obtain ⟨count, rfl, hc⟩ := l.takes_count _ hread
  obtain ⟨rfl, bs, rfl, ha⟩ := forall₂_zipIdx_of_times (P := fun _ => True)
    (fun i s p rest hok _ => ⟨trivial, l.takes_local i hok⟩) h trivial
  rw [List.forall₂_and_left] at ha
  obtain ⟨hlt, ha⟩ := ha
  refine ⟨fun v hv => ?_, count ++ bs.flatten, by simp, ?_⟩
  · obtain ⟨i, hi⟩ := List.mem_iff_getElem?.mp hv
    exact hlt (v, i) (List.mk_mem_zipIdx_iff_getElem?.mpr hi)
  rw [writeLocals_eq_ok]
  refine ⟨count, bs, by simpa using hc, ?_, rfl⟩
  rw [List.zipIdx_map, List.forall₂_map_left_iff]
  have hplaces : ∀ p ∈ vs.zipIdx, (absentPlaces (vs.map Prod.snd)).contains p.2 = !p.1.2 := by
    rintro ⟨v, i⟩ hm
    rw [List.mk_mem_zipIdx_iff_getElem?] at hm
    apply contains_absentPlaces
    rw [List.getElem?_map, hm]
    rfl
  have hb := (List.forall₂_and_left _ _).mpr ⟨hplaces, ha⟩
  refine hb.imp ?_
  rintro ⟨⟨v, present⟩, i⟩ b ⟨hpl, name, start, stop, hn, hp, hs, hst, rfl⟩
  refine ⟨start, stop, hs, hst, ?_⟩
  simp only at hn hp hpl
  simp only [Prod.map, id, hpl, hn, hp, writeName_isSome]

lemma takes_functions {depth : Nat} {source : ChunkName} {fs : List Prototype}
    (hf : (l.readFunction depth source).Takes fun f b =>
      f.Fits (l.sizeT.words - 1) ∧ l.writeFunction source f = .ok b)
    (h : times n (fun _ => l.readFunction depth source) s' = .ok (fs, rest)) :
    Prototype.AllFit (l.sizeT.words - 1) fs ∧ ∃ count b, s = count ++ (b ++ rest) ∧
      l.writeCount fs.length = .ok count ∧ l.writeFunctions source fs = .ok b := by
  obtain ⟨count, rfl, hc⟩ := l.takes_count _ hread
  obtain ⟨rfl, bs, rfl, ha⟩ := forall₂_of_times (fun _ => hf) h
  rw [List.forall₂_and_left] at ha
  exact ⟨Prototype.allFit_iff.mpr ha.1, count, bs.flatten, rfl, hc,
    l.writeFunctions_eq_ok.mpr ⟨bs, ha.2, rfl⟩⟩

omit hread in
lemma length_nameUpvalues {names : List (Option Bytes)}
    (h : names = [] ∨ names.length = us.length) : (nameUpvalues us names).length = us.length := by
  rw [nameUpvalues]
  split
  · rfl
  · next hne => simp [h.resolve_left (by simpa using hne)]

omit hread in
lemma mem_nameUpvalues {u : UpvalueDescriptor} {names : List (Option Bytes)}
    (h : u ∈ nameUpvalues us names) : u ∈ us ∨ ∃ name ∈ names, u.name = name.getD [] := by
  rw [nameUpvalues] at h
  split at h
  · exact .inl h
  · rw [← List.map_uncurry_zip_eq_zipWith, List.mem_map] at h
    obtain ⟨⟨u', name⟩, hm, rfl⟩ := h
    exact .inr ⟨name, (List.of_mem_zip hm).2, rfl⟩

lemma takes_names {names : List (Option Bytes)} (hus : ∀ u ∈ us, u.name = [])
    (hn : n = 0 ∨ n = us.length)
    (h : times n (fun i => inPlace (.upvalueName i) l.readString) s' = .ok (names, rest))
    (form : DumpForm) (hw : form.upvalueNamesWritten = decide (0 < n))
    (ha : form.absentUpvalueNames = absentPlaces (names.map Option.isSome)) :
    (names = [] ∨ names.length = us.length) ∧
      (∀ u ∈ nameUpvalues us names, u.name.length < l.sizeT.words - 1) ∧
      ∃ b, s = b ++ rest ∧ l.writeUpvalueNames form (nameUpvalues us names) = .ok b := by
  obtain ⟨count, rfl, hc⟩ := l.takes_count _ hread
  obtain ⟨hl, bs, rfl, hal⟩ := forall₂_of_times (fun i => l.takes_string.mapError _) h
  rw [List.forall₂_and_left] at hal
  obtain ⟨hlt, hal⟩ := hal
  refine ⟨?_, fun u hu => ?_, count ++ bs.flatten, by simp, ?_⟩
  · rw [← List.length_eq_zero_iff]
    omega
  · rcases mem_nameUpvalues hu with hu | ⟨name, hname, heq⟩
    · rw [hus u hu]
      exact Nat.zero_lt_of_lt l.sizeT.maxShortString_lt
    · rw [heq]
      exact hlt name hname
  rw [writeUpvalueNames_eq_ok]
  cases names with
  | nil =>
    cases hal
    subst hl
    have han : namesWritten form us = false := by simpa [namesWritten, hw] using hus
    simpa [nameUpvalues, han] using hc
  | cons name names =>
    generalize hna : name :: names = all at *
    have hpo : 0 < n := by
      rw [← hl, ← hna]
      simp
    have hus' : us.length = all.length := by omega
    rw [namesWritten, hw, decide_eq_true hpo, Bool.or_true]
    have hz : nameUpvalues us all =
        us.zipWith (fun u name => { u with name := name.getD [] }) all := by
      rw [nameUpvalues, if_neg (by simp [← hna])]
    refine ⟨count, by simpa [hz, hus', hl] using hc, ?_⟩
    congr 1
    rw [flatten_eq_flatMap hal, List.flatMap_def]
    congr 1
    apply List.ext_getElem?
    intro i
    rw [hz, List.getElem?_map, List.getElem?_map, List.getElem?_zipIdx, List.getElem?_zipWith]
    cases hi : all[i]? with
    | none => simp
    | some o =>
      have hlt : i < us.length := by
        rw [hus']
        exact (List.getElem?_eq_some_iff.mp hi).1
      have hp : (absentPlaces (all.map Option.isSome)).contains i = !o.isSome :=
        contains_absentPlaces (by rw [List.getElem?_map, hi]; rfl)
      simp only [List.getElem?_eq_getElem hlt, Option.map_some, Nat.zero_add, ha, hp,
        writeName_isSome]

omit hread in
lemma takes_function (depth : Nat) : ∀ parent : ChunkName, parent.length < l.sizeT.words - 1 →
    (l.readFunction depth parent).Takes fun f b =>
      f.Fits (l.sizeT.words - 1) ∧ l.writeFunction parent f = .ok b := by
  induction depth with
  | zero =>
    intro parent _ s f rest h
    rw [readFunction, inPlace, mapError_eq_ok] at h
    exact absurd h throw_ne_ok
  | succ depth ih =>
    intro parent hparent s f rest h
    simp only [readFunction, bind_eq_ok, check_eq_ok, pure_eq_ok, inPlace, mapError_eq_ok] at h
    obtain ⟨name, s1, hname, lineDefined, s2, hfi, lastLineDefined, s3, hla, h⟩ := h
    obtain ⟨numParams, s4, hp, isVararg, s5, hv, maxStackSize, s6, hs, h⟩ := h
    obtain ⟨codeSize, s7, hcodeSize, code, s8, hco, h⟩ := h
    obtain ⟨constantCount, s9, hconstantCount, constants, s10, hc, h⟩ := h
    obtain ⟨upvalueCount, s11, hupvalueCount, hmax, descriptors, s12, hd, h⟩ := h
    obtain ⟨functionCount, s13, hfunctionCount, functions, s14, hf, h⟩ := h
    obtain ⟨lineCount, s15, hlineCount, lineInfo, s16, hlineInfo, h⟩ := h
    obtain ⟨localCount, s17, hlocalCount, locals, s18, hl, h⟩ := h
    obtain ⟨nameCount, s19, hnameCount, hnames, names, s20, hnameList, rfl, rfl⟩ := h
    have hafterConstants := l.ne_nil_of_readCount hupvalueCount
    have hafterUpvalues := l.ne_nil_of_readCount hfunctionCount
    obtain ⟨_, rfl, hlt, rfl⟩ := l.takes_string hname
    have hsource : (name.getD parent).length < l.sizeT.words - 1 := by
      cases name with
      | none => exact hparent
      | some name => exact hlt
    obtain ⟨first, rfl, wfirst⟩ := l.takes_int hfi
    obtain ⟨last, rfl, wlast⟩ := l.takes_int hla
    obtain ⟨_, rfl, rfl⟩ := takes_byte _ hp
    obtain ⟨_, rfl, rfl⟩ := takes_flag hv
    obtain ⟨_, rfl, rfl⟩ := takes_byte _ hs
    obtain ⟨codeBytes, rfl, wcode⟩ := l.takes_code hcodeSize hco
    obtain ⟨fconstants, constantBytes, rfl, wconstants⟩ :=
      l.takes_constants hconstantCount hc hafterConstants
    obtain ⟨hlen, hna, upvalueBytes, rfl, wupvalues⟩ :=
      l.takes_upvalues hupvalueCount hd hafterUpvalues
    obtain ⟨fnested, count, nested, rfl, wcount, wnested⟩ :=
      l.takes_functions hfunctionCount (ih _ hsource) hf
    obtain ⟨lineBytes, rfl, wlines⟩ := l.takes_lineInfo hlineCount hlineInfo
    obtain ⟨flocals, localBytes, rfl, wlocals⟩ := l.takes_locals hlocalCount hl
    have hn : nameCount = 0 ∨ nameCount = descriptors.length := by omega
    obtain ⟨hnameLength, fnames, nameBytes, rfl, wnames⟩ :=
      l.takes_names hnameCount hna hn hnameList
        ⟨name.isSome, 0 < nameCount, absentPlaces (locals.map Prod.snd),
          absentPlaces (names.map Option.isSome)⟩ rfl rfl
    have wdescriptors := (l.writeUpvalues_nameUpvalues hnameLength).trans wupvalues
    have hmax' : (nameUpvalues descriptors names).length ≤ maxUpvalues := by
      rw [length_nameUpvalues hnameLength, hlen]
      exact not_lt.mp hmax
    refine ⟨_, ?_, ⟨hsource, fconstants, List.forall_mem_map.mpr flocals, fnames, hmax', fnested⟩,
      l.writeFunction_eq_ok.mpr
      ⟨⟨first, last, codeBytes, constantBytes, upvalueBytes, count, nested, lineBytes,
          localBytes, nameBytes⟩,
        ⟨wfirst, wlast, wcode, wconstants, wdescriptors, wcount, wnested, wlines, wlocals, wnames⟩,
        rfl⟩⟩
    rw [Parts.join, ← l.writeOptional_eq_source name rfl rfl]
    simp

end Layout

lemma Header.width_eq_ok {field : String} {n : UInt8} {w : Width}
    (h : Header.width field n = .ok w) : w.size.toUInt8 = n := by
  have hn : n.toNat.toUInt8 = n := by simp [Nat.toUInt8]
  rw [Header.width, Width.ofSize?] at h
  split at h
  · next heq =>
    split at heq
    · cases heq
      cases h
      have : n.toNat = 4 := by omega
      rw [← hn, this]
      rfl
    · split at heq
      · cases heq
        cases h
        have : n.toNat = 8 := by omega
        rw [← hn, this]
        rfl
      · cases heq
  · cases h

lemma Header.header_layout {h : Header} {l : Layout} (hl : h.layout = .ok l) : l.header = h := by
  simp only [Header.layout, Except.check_eq_ok, ne_eq, not_not, Except.bind_eq_ok] at hl
  obtain ⟨hv, hf, hi, int, hint, sizeT, hsizeT, integer, hin, number, hn, hl⟩ := hl
  cases ho : h.byteOrder with
  | none =>
    rw [ho] at hl
    cases hl
  | some order =>
    rw [ho] at hl
    cases hl
    obtain ⟨version, format, intSize, sizeTSize, instructionSize, integerSize, numberSize,
      byteOrder⟩ := h
    simp only at hv hf hi ho
    simp only [Layout.header, width_eq_ok hint, width_eq_ok hsizeT, width_eq_ok hin,
      width_eq_ok hn, hv, hf, hi, ho]

namespace Layout

open Reader

lemma decode_of_orderOf {mark : Bytes} {order : ByteOrder} (h : orderOf mark = some order) :
    order.decode mark = Chunk.orderMark := by
  rw [orderOf] at h
  split at h
  · next hl =>
    cases h
    exact hl
  · split at h
    · next hb =>
      cases h
      exact hb
    · cases h

lemma takes_preamble : readPreamble.Takes fun p b => b = p.1.writeHeader p.2 := by
  rintro s ⟨l, n⟩ rest h
  simp only [readPreamble, bind_eq_ok, check_eq_ok, literal_eq_ok, not_not] at h
  obtain ⟨_, s1, rfl, version, s2, hv, rfl, format, s3, hf, rfl, h⟩ := h
  obtain ⟨_, s4, rfl, intSize, s5, hint, sizeTSize, s6, hsizeT, h⟩ := h
  obtain ⟨instructionSize, s7, hi, integerSize, s8, hin, numberSize, s9, hn, h⟩ := h
  obtain ⟨_, rfl, rfl⟩ := takes_byte _ hv
  obtain ⟨_, rfl, rfl⟩ := takes_byte _ hf
  obtain ⟨_, rfl, rfl⟩ := takes_byte _ hint
  obtain ⟨_, rfl, rfl⟩ := takes_byte _ hsizeT
  obtain ⟨_, rfl, rfl⟩ := takes_byte _ hi
  obtain ⟨_, rfl, rfl⟩ := takes_byte _ hin
  obtain ⟨_, rfl, rfl⟩ := takes_byte _ hn
  generalize hl : Header.layout _ = layout at h
  cases layout with
  | error e => exact absurd h throw_ne_ok
  | ok l0 =>
    have hh := Header.header_layout hl
    simp only [bind_eq_ok] at h
    obtain ⟨_, s10, hm, h⟩ := h
    obtain ⟨mark, rfl, hle, rfl⟩ := takes_bytes _ (mapError_eq_ok.mp hm)
    generalize ho : orderOf _ = order at h
    cases order with
    | none => exact absurd h throw_ne_ok
    | some order =>
      simp only [bind_eq_ok, check_eq_ok, pure_eq_ok, not_not, Prod.mk.injEq] at h
      obtain ⟨_, s11, hfl, rfl, _, s12, hc, ⟨rfl, rfl⟩, rfl⟩ := h
      obtain ⟨_, rfl, rfl⟩ := takes_number _ (mapError_eq_ok.mp hfl)
      obtain ⟨_, rfl, rfl⟩ := takes_byte _ hc
      have hw : order.word l0.integer Chunk.orderMark = mark := by
        rw [← decode_of_orderOf ho, ByteOrder.word, ← hle, ByteOrder.encode_decode]
      simp only [Layout.header, Header.mk.injEq] at hh
      obtain ⟨-, -, rfl, rfl, rfl, rfl, rfl, -⟩ := hh
      simp [writeHeader, Layout.header, hw]

end Layout

namespace Chunk

lemma undump_eq_ok : undump data = .ok c ↔ ∃ l n rest main,
      Layout.readPreamble data = .ok ((l, n), rest) ∧
      l.readFunction (rest.length + 1) [] rest = .ok (main, []) ∧
      n.toNat = main.upvalues.length ∧ c = ⟨l.header, n, some main⟩ := by
  simp only [undump, Except.bind_eq_ok, Except.mapError_eq_ok, Prod.exists]
  constructor
  · rintro ⟨l, n, rest, hp, main, left, hm, h⟩
    simp only [Except.check_eq_ok, ne_eq, not_not] at h
    obtain ⟨hl, hn, h⟩ := h
    cases h
    cases left with
    | cons => simp at hl
    | nil => exact ⟨l, n, rest, main, hp, hm, hn, rfl⟩
  · rintro ⟨l, n, rest, main, hp, hm, hn, rfl⟩
    refine ⟨l, n, rest, hp, main, [], hm, ?_⟩
    simp only [Except.check_eq_ok, ne_eq, not_not]
    exact ⟨by simp, hn, rfl⟩

lemma dump_eq_ok : c.dump = .ok data ↔ ∃ l main body, c.header.layout = .ok l ∧ c.main = some main ∧
      main.upvalues.length ≤ maxUpvalues ∧ c.upvalueCount.toNat = main.upvalues.length ∧
      l.writeFunction [] main = .ok body ∧ data = l.writeHeader c.upvalueCount ++ body := by
  simp only [dump, Except.bind_eq_ok, Except.mapError_eq_ok]
  cases hma : c.main with
  | none =>
    constructor
    · rintro ⟨l, -, h⟩
      cases h
    · rintro ⟨l, main, body, -, h, -⟩
      cases h
  | some main =>
    simp only [Except.check_eq_ok, Except.bind_eq_ok, Except.mapError_eq_ok, ne_eq, not_not,
      not_lt, Option.some.injEq]
    constructor
    · rintro ⟨l, hl, hm, hn, body, hb, h⟩
      cases h
      exact ⟨l, main, body, hl, rfl, hm, hn, hb, rfl⟩
    · rintro ⟨l, _, body, hl, rfl, hm, hn, hb, rfl⟩
      exact ⟨l, hl, hm, hn, body, hb, rfl⟩

/-- What is read is written back byte for byte, so no two texts are read as the same chunk. -/
theorem dump_undump {data : Bytes} {c : Chunk} (h : Chunk.undump data = .ok c) :
    c.dump = .ok data ∧ ∀ data', Chunk.undump data' = .ok c → data' = data := by
  have hdump : ∀ data', Chunk.undump data' = .ok c → c.dump = .ok data' := by
    intro data' h'
    obtain ⟨l, n, rest, main, hpreamble, hmain, hn, rfl⟩ := undump_eq_ok.mp h'
    obtain ⟨_, rfl, rfl⟩ := Layout.takes_preamble hpreamble
    obtain ⟨body, hbody, -, hwrite⟩ := l.takes_function _ [] l.sizeT.nil_lt hmain
    rw [List.append_nil] at hbody
    have hlt : n.toNat < 256 := n.toNat_lt
    refine dump_eq_ok.mpr ⟨l, main, body, l.layout_header, rfl, ?_, hn, hwrite, ?_⟩
    · simp only [maxUpvalues]
      omega
    · rw [hbody]
  refine ⟨hdump data h, ?_⟩
  intro data' h'
  have heq := (hdump data' h').symm.trans (hdump data h)
  exact Except.ok.inj heq

def namelessBytes : Bytes := [
  0x1b, 0x4c, 0x75, 0x61, 0x53, 0, 0x19, 0x93, 0x0d, 0x0a, 0x1a, 0x0a, 0x04, 0x04, 0x04, 0x04,
  0x04, 0, 0, 0x56, 0x78, 0x43, 0xb9, 0x40, 0, 0x01, 0, 0, 0, 0, 0, 0,
  0, 0, 0, 0, 0x01, 0x02, 0, 0, 0, 0x01, 0, 0x80, 0, 0x26, 0, 0,
  0, 0x03, 0x04, 0x02, 0x61, 0, 0x01, 0x01, 0, 0, 0, 0x01, 0x01, 0, 0, 0,
  0, 0x01, 0x01, 0, 0, 0, 0, 0, 0, 0, 0, 0, 0x01, 0x02, 0, 0,
  0, 0x01, 0, 0x80, 0, 0x26, 0, 0, 0, 0x02, 0x03, 0x7f, 0xc0, 0, 0x01, 0x13,
  0xff, 0xff, 0xff, 0xfb, 0, 0, 0, 0x01, 0, 0, 0, 0, 0, 0, 0, 0,
  0, 0x01, 0, 0, 0, 0x07, 0, 0, 0, 0x02, 0, 0, 0, 0, 0, 0,
  0, 0, 0x01, 0x01, 0, 0, 0, 0, 0, 0, 0, 0x01, 0, 0, 0, 0x01,
  0, 0, 0, 0, 0x01, 0, 0, 0, 0x07, 0, 0, 0, 0, 0, 0, 0,
  0]

theorem dump_undump_nameless : ∃ c, Chunk.undump namelessBytes = .ok c ∧
    c.dump = .ok namelessBytes ∧ ∀ data', Chunk.undump data' = .ok c → data' = namelessBytes := by
  have hok : (Chunk.undump namelessBytes).toOption.isSome = true := by decide +kernel
  cases h : Chunk.undump namelessBytes with
  | error e => simp [h, Except.toOption] at hok
  | ok c => exact ⟨c, rfl, dump_undump h⟩

end Chunk

end LuaBytecode
