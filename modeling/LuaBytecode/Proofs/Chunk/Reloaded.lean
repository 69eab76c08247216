import LuaBytecode.Chunk.Combine
import LuaBytecode.Proofs.Chunk.Recovered

namespace LuaBytecode

open Prototype

variable {fs fs' : List Prototype} {f : Prototype} {p : ChunkName}

def Chunk.ReloadsAs (c c' : Chunk) : Prop := ∃ data, c.dump = .ok data ∧ Chunk.undump data = .ok c'

lemma Binary64.toSingle_roundToSingle (x : Binary64) : x.roundToSingle.toSingle = x.toSingle :=
  toSingle_ofSingle? x.ofSingle?_toSingle

namespace Prototype

mutual

lemma strip_exported : ∀ f : Prototype, f.exported.strip = f.strip
  | ⟨_, _, _, _, _, _, functions, _, _, _, _, _, _⟩ => by
    simp only [exported, strip, stripAll_exportedAll functions]

lemma stripAll_exportedAll : ∀ fs : List Prototype, stripAll (exportedAll fs) = stripAll fs
  | [] => rfl
  | f :: fs => by simp only [exportedAll, stripAll, strip_exported f, stripAll_exportedAll fs]

end

lemma length_stripAll (fs : List Prototype) : (stripAll fs).length = fs.length := by
  induction fs with
  | nil => rfl
  | cons f fs ih => simp only [stripAll, List.length_cons, ih]

lemma length_recoveredAll (w : Width) (p : ChunkName) (fs : List Prototype) :
    (recoveredAll w p fs).length = fs.length := by
  induction fs with
  | nil => rfl
  | cons f fs ih => simp only [recoveredAll, List.length_cons, ih]

end Prototype

namespace Layout

open Reader

variable (l : Layout)

lemma writeFunction_parent {q : ChunkName} (h : sourceWritten p f = sourceWritten q f) :
    l.writeFunction p f = l.writeFunction q f := by
  cases f
  simp only [sourceWritten] at h
  simp only [writeFunction, h]

lemma head_writeString (s : Bytes) : ∃ b rest, l.writeString s = b :: rest ∧ b ≠ 0 := by
  rw [writeString]
  split
  · next hl =>
    refine ⟨_, _, rfl, fun h => ?_⟩
    simp only [Value.maxShortString] at hl
    have hn : (s.length + 1) % 256 = 0 := by simpa using congrArg UInt8.toNat h
    omega
  · exact ⟨_, _, rfl, by decide⟩

lemma sourceWritten_of_read {depth : Nat} {parent : ChunkName} {b : UInt8} {s rest : Bytes}
    (h : l.readFunction depth parent (b :: s) = .ok (f, rest)) (hb : b ≠ 0) (p : ChunkName) :
    sourceWritten p f = true := by
  cases depth with
  | zero =>
    rw [readFunction, inPlace, mapError_eq_ok] at h
    exact absurd h throw_ne_ok
  | succ depth =>
    simp only [readFunction, bind_eq_ok, check_eq_ok, pure_eq_ok, inPlace, mapError_eq_ok] at h
    obtain ⟨name, _, hn, _, _, -, _, _, -, _, _, -, _, _, -, _, _, -, h⟩ := h
    obtain ⟨_, _, -, _, _, -, _, _, -, _, _, -, _, _, -, -, _, _, -, h⟩ := h
    obtain ⟨_, _, -, _, _, -, _, _, -, _, _, -, _, _, -, _, _, -, _, _, -, -, _, _, -, rfl, -⟩ := h
    cases name with
    | some name => rfl
    | none =>
      obtain ⟨_, heq, -, rfl⟩ := l.takes_string hn
      simp only [writeOptional, List.cons_append, List.cons.injEq] at heq
      exact absurd heq.1 hb

def Reloads (f f' : Prototype) : Prop := ∃ body, l.writeFunction [] f = .ok body ∧
    l.readFunction (body.length + 1) [] body = .ok (f', [])

variable {l} {f' : Prototype}

lemma Reloads.writeFunction_eq (h : l.Reloads f f') :
    l.writeFunction [] f' = l.writeFunction [] f := by
  obtain ⟨body, hw, hr⟩ := h
  obtain ⟨b, hb, -, hw'⟩ := l.takes_function _ [] l.sizeT.nil_lt hr
  rw [List.append_nil] at hb
  rw [hw', hw, hb]

lemma Reloads.sourceWritten (h : l.Reloads f f') (hf : f.source ≠ []) (p : ChunkName) :
    sourceWritten p f' = true := by
  obtain ⟨body, hwr, hr⟩ := h
  have hw : Layout.sourceWritten [] f = true := by simp [Layout.sourceWritten, hf]
  obtain ⟨parts, -, rfl⟩ := l.writeFunction_eq_ok.mp hwr
  obtain ⟨b, rest, hn, hb⟩ := l.head_writeString f.source
  rw [if_pos hw, hn, Parts.join] at hr
  exact l.sourceWritten_of_read hr hb p

lemma Reloads.writeFunction_named (h : l.Reloads f f') (hf : f.source ≠ []) (hp : f.source ≠ p) :
    l.writeFunction p f' = l.writeFunction p f := by
  have hw : ∀ q, f.source ≠ q → Layout.sourceWritten q f = true := by
    intro q hq
    simp [Layout.sourceWritten, hf, hq]
  calc l.writeFunction p f' = l.writeFunction [] f' :=
        l.writeFunction_parent (by rw [h.sourceWritten hf, h.sourceWritten hf])
    _ = l.writeFunction [] f := h.writeFunction_eq
    _ = l.writeFunction p f := l.writeFunction_parent (by rw [hw _ hf, hw _ hp])

lemma writeConstant_rounded (v : Value) :
    l.writeConstant (v.rounded l.number) = l.writeConstant v := by
  cases v with
  | float x =>
    cases hw : l.number <;>
      simp [writeConstant, Value.rounded, Binary64.rounded, Value.tag, ByteOrder.float, hw,
        Binary64.toSingle_roundToSingle]
  | nil | bool | integer | string => rfl

lemma writeConstants_rounded (ks : List Value) :
    l.writeConstants (ks.map (Value.rounded l.number)) = l.writeConstants ks := by
  simp only [writeConstants, List.length_map, List.zipIdx_map, List.mapM_map,
    Function.comp_def, Prod.map, writeConstant_rounded, id]

mutual

lemma writeFunction_recovered_strip : ∀ (f : Prototype) (p q : ChunkName),
    l.writeFunction p (f.recovered l.number q).strip = l.writeFunction p f.strip
  | ⟨_, _, _, _, _, _, functions, _, _, _, _, _, _⟩, p, q => by
    simp only [recovered, strip, writeFunction, writeConstants_rounded,
      length_stripAll, length_recoveredAll,
      writeFunctions_recovered_strip functions]

lemma writeFunctions_recovered_strip : ∀ (fs : List Prototype) (p q : ChunkName),
    l.writeFunctions p (stripAll (recoveredAll l.number q fs)) = l.writeFunctions p (stripAll fs)
  | [], _, _ => rfl
  | f :: fs, p, q => by
    simp only [recoveredAll, stripAll, writeFunctions,
      writeFunction_recovered_strip f, writeFunctions_recovered_strip fs]

end

lemma Reloads.exported (h : l.Reloads f f') (hf : f.Fits (l.sizeT.words - 1)) :
    f'.exported = f.recovered l.number [] := by
  obtain ⟨body, hw, hr⟩ := h
  obtain ⟨g, hg, he⟩ := l.reads_function f (.inl rfl) hf hw (Nat.le_succ body.length)
  have heq := hg []
  rw [List.append_nil, hr] at heq
  cases heq
  exact he

lemma Reloads.writeFunction_strip (h : l.Reloads f f') (hf : f.Fits (l.sizeT.words - 1))
    (p : ChunkName) : l.writeFunction p f'.strip = l.writeFunction p f.strip := by
  rw [← f'.strip_exported, h.exported hf, writeFunction_recovered_strip]

end Layout

namespace Chunk

open Layout

variable {c c' : Chunk} {main main' : Prototype}

lemma ReloadsAs.reloads (h : c.ReloadsAs c') : ∃ l main main', c.header.layout = .ok l ∧
    c.main = some main ∧ c' = ⟨c.header, c.upvalueCount, some main'⟩ ∧ l.Reloads main main' ∧
    main'.upvalues.length = main.upvalues.length := by
  obtain ⟨data, hd, hu⟩ := h
  obtain ⟨l, main, body, hl, hm, -, hc, hb, rfl⟩ := dump_eq_ok.mp hd
  obtain ⟨l', n, rest, main', hp, hr, hc', rfl⟩ := undump_eq_ok.mp hu
  rw [l.reads_preamble c.upvalueCount body] at hp
  cases hp
  refine ⟨l, main, main', hl, hm, ?_, ⟨body, hb, hr⟩, ?_⟩
  · rw [Header.header_layout hl]
  · rw [← hc, ← hc']

lemma dump_congr {header : Header} {n : UInt8} (hle : main'.upvalues.length = main.upvalues.length)
    (hw : ∀ l, header.layout = .ok l → l.writeFunction [] main' = l.writeFunction [] main) :
    dump ⟨header, n, some main'⟩ = dump ⟨header, n, some main⟩ := by
  cases hl : header.layout with
  | error e => simp only [dump, hl, Except.mapError, bind, Except.bind]
  | ok l => simp only [dump, hle, hw l hl, hl, Except.mapError, bind, Except.bind]

lemma length_upvalues_strip (f : Prototype) : f.strip.upvalues.length = f.upvalues.length := by
  cases f
  simp [Prototype.strip]

lemma callAll_congr (h : fs'.length = fs.length) :
    callAll fs' = (callAll fs).map fun main => { main with functions := fs' } := by
  simp only [callAll, h]
  cases (List.range fs.length).mapM callPart with
  | error e => rfl
  | ok calls =>
    cases Instruction.abc .return 0 1 0 <;> rfl

lemma callAll_eq_ok (h : callAll fs = .ok main) :
    main.functions = fs ∧ main.source = combinedName := by
  simp only [callAll, Except.bind_eq_ok] at h
  obtain ⟨calls, -, final, -, h⟩ := h
  cases h
  exact ⟨rfl, rfl⟩

end Chunk

namespace Layout

variable (l : Layout)

lemma writeFunction_functions (hl : fs.length = f.functions.length)
    (h : l.writeFunctions f.source fs = l.writeFunctions f.source f.functions) :
    l.writeFunction p { f with functions := fs } = l.writeFunction p f := by
  cases f
  simp only [writeFunction, hl, h]

lemma writeFunction_functions_strip (hl : fs.length = f.functions.length)
    (h : l.writeFunctions [] (stripAll fs) = l.writeFunctions [] (stripAll f.functions)) :
    l.writeFunction p (strip { f with functions := fs }) = l.writeFunction p f.strip := by
  cases f
  simp only [strip, writeFunction, length_stripAll, hl, h]

lemma writeFunctions_congr
    (h : List.Forall₂ (fun f f' => l.writeFunction p f' = l.writeFunction p f) fs fs') :
    l.writeFunctions p fs' = l.writeFunctions p fs := by
  induction h with
  | nil => rfl
  | cons hf _ ih => simp only [writeFunctions, hf, ih]

lemma writeFunctions_strip_congr
    (h : List.Forall₂ (fun f f' => l.writeFunction [] f'.strip = l.writeFunction [] f.strip)
      fs fs') :
    l.writeFunctions [] (stripAll fs') = l.writeFunctions [] (stripAll fs) := by
  induction h with
  | nil => rfl
  | cons hf _ ih => simp only [stripAll, writeFunctions, hf, ih]

end Layout

end LuaBytecode
