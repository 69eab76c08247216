import LuaBytecode.Chunk.Dump
import LuaBytecode.Chunk.Undump
import LuaBytecode.Proofs.Number.Narrowing
import Mathlib.Data.List.Forall2

namespace LuaBytecode

variable {b b' s rest : Bytes} {P : Bytes → Prop} {bs : List Bytes} {i : Int} {v : Value} {n : Nat}
  {us : List UpvalueDescriptor} {parent : ChunkName}

lemma Except.mapError_eq_ok {ε ε' α : Type} {f : ε → ε'} {x : Except ε α} {a : α} :
    x.mapError f = .ok a ↔ x = .ok a := by
  cases x <;> simp [Except.mapError]

lemma Except.bind_eq_ok {ε α β : Type} {x : Except ε α} {k : α → Except ε β} {b : β} :
    (x >>= k) = .ok b ↔ ∃ a, x = .ok a ∧ k a = .ok b := by
  cases x with
  | error e =>
    change Except.error e = .ok b ↔ _
    simp
  | ok a =>
    change k a = .ok b ↔ _
    simp

lemma Except.check_eq_ok {ε α : Type} {c : Prop} [Decidable c] {e : ε} {k : Unit → Except ε α}
    {a : α} : (if c then throw e >>= k else k ()) = .ok a ↔ ¬c ∧ k () = .ok a := by
  by_cases hc : c
  · have ht : ¬(throw e >>= k : Except ε α) = .ok a := by
      change ¬Except.error e = .ok a
      simp
    simp [hc, ht]
  · simp [hc]

lemma Except.mapM_eq_ok {ε α β : Type} {f : α → Except ε β} {as : List α} {bs : List β} :
    as.mapM f = .ok bs ↔ List.Forall₂ (fun a b => f a = .ok b) as bs := by
  induction as generalizing bs with
  | nil =>
    change Except.ok [] = .ok bs ↔ _
    simp [eq_comm]
  | cons a as ih =>
    simp only [List.mapM_cons, bind_eq_ok, ih, List.forall₂_cons_left_iff]
    constructor
    · rintro ⟨b, hb, bs', hbs, heq⟩
      cases heq
      exact ⟨b, bs', hb, hbs, rfl⟩
    · rintro ⟨b, bs', hb, hbs, rfl⟩
      exact ⟨b, hb, bs', hbs, rfl⟩

namespace Reader

variable {ε ε' α β : Type} {item : Nat → Reader ε α} {r : Reader ε α} {as : List α} {x : α × Bytes}
  {count : Nat} {e : ε} {a : α}

lemma bind_eq_ok {k : α → Reader ε β} {s : Bytes} {x : β × Bytes} :
    (r >>= k) s = .ok x ↔ ∃ a rest, r s = .ok (a, rest) ∧ k a rest = .ok x := by
  change (r s >>= fun p => k p.1 p.2) = .ok x ↔ _
  rw [Except.bind_eq_ok]
  simp

lemma pure_eq_ok {a b : α} : (pure a : Reader ε α) s = .ok (b, rest) ↔ a = b ∧ s = rest := by
  change Except.ok (a, s) = .ok (b, rest) ↔ _
  simp

lemma throw_ne_ok : ¬(throw e : Reader ε α) s = .ok x := by
  change ¬Except.error e = .ok x
  simp

lemma check_eq_ok {c : Prop} [Decidable c] {k : Unit → Reader ε α} {s : Bytes} :
    (if c then throw e >>= k else k ()) s = .ok x ↔ ¬c ∧ k () s = .ok x := by
  have h := @Except.check_eq_ok ε _ c _ e (fun u => k u s) x
  rw [← h]
  split <;> rfl

lemma mapError_eq_ok {f : ε → ε'} {s : Bytes} : r.mapError f s = .ok x ↔ r s = .ok x :=
  Except.mapError_eq_ok

lemma map_eq_ok {f : α → β} {b : β} :
    (f <$> r) s = .ok (b, rest) ↔ ∃ a, r s = .ok (a, rest) ∧ f a = b := by
  rw [← bind_pure_comp, bind_eq_ok]
  simp only [pure_eq_ok]
  constructor
  · rintro ⟨a, s', ha, rfl, rfl⟩
    exact ⟨a, ha, rfl⟩
  · rintro ⟨a, ha, rfl⟩
    exact ⟨a, rest, ha, rfl, rfl⟩

def Reads (r : Reader ε α) (b : Bytes) (a : α) : Prop := ∀ rest, r (b ++ rest) = .ok (a, rest)

def Answers (r : Reader ε α) (b : Bytes) (x : Except ε α) : Prop :=
  ∀ rest, r (b ++ rest) = x.map (·, rest)

def Takes (r : Reader ε α) (w : α → Bytes → Prop) : Prop :=
  ∀ ⦃s a rest⦄, r s = .ok (a, rest) → ∃ b, s = b ++ rest ∧ w a b

lemma Reads.pure (a : α) : (pure a : Reader ε α).Reads [] a := by
  intro rest
  simp [pure_eq_ok]

lemma Answers.bind {k : α → Reader ε β} {x : Except ε α} {y : α → Except ε β} (h : r.Answers b x)
    (h' : ∀ a, x = .ok a → (k a).Answers b' (y a)) : (r >>= k).Answers (b ++ b') (x >>= y) := by
  intro rest
  change (r _ >>= fun p => k p.1 p.2) = _
  rw [List.append_assoc, h]
  cases x with
  | error e => rfl
  | ok a => exact h' a rfl rest

lemma Reads.answers {k : α → Reader ε β} {y : Except ε β} (h : r.Reads b a)
    (h' : (k a).Answers b' y) : (r >>= k).Answers (b ++ b') y :=
  Answers.bind (x := .ok a) (y := fun _ => y) h fun _ ha => Except.ok.inj ha ▸ h'

lemma Reads.bind {k : α → Reader ε β} {c : β} (h : r.Reads b a) (h' : (k a).Reads b' c) :
    (r >>= k).Reads (b ++ b') c := h.answers (y := .ok c) h'

lemma Reads.map (f : α → β) (h : r.Reads b a) : (f <$> r).Reads b (f a) := by
  intro rest
  rw [map_eq_ok]
  exact ⟨a, h rest, rfl⟩

lemma Reads.mapError {b : Bytes} (f : ε → ε') (h : r.Reads b a) : (r.mapError f).Reads b a := by
  intro rest
  exact mapError_eq_ok.mpr (h rest)

lemma Takes.mapError {w : α → Bytes → Prop} (f : ε → ε') (h : r.Takes w) :
    (r.mapError f).Takes w := by
  intro s a rest heq
  exact h (mapError_eq_ok.mp heq)

lemma repeatFrom_of_forall₂ (h : List.Forall₂ (fun b a => ∀ i, (item i).Reads b a) bs as) :
    ∀ (index : Nat) (done : List α) (rest : Bytes),
      repeatFrom item as.length index done (bs.flatten ++ rest) =
        .ok (done.reverse ++ as, rest) := by
  induction h with
  | nil =>
    simp [repeatFrom]
  | cons hi _ ih =>
    intro index done rest
    simp [repeatFrom, hi index _, ih]

lemma reads_times (h : List.Forall₂ (fun b a => ∀ i, (item i).Reads b a) bs as) :
    (times as.length item).Reads bs.flatten as := by
  intro rest
  exact repeatFrom_of_forall₂ h 0 [] rest

lemma forall₂_of_repeatFrom {w : Nat → α → Bytes → Prop}
    (hi : ∀ i s a rest, item i s = .ok (a, rest) → P rest → P s ∧ ∃ b, s = b ++ rest ∧ w i a b) :
    ∀ {index : Nat} {done as : List α} {s rest : Bytes},
      repeatFrom item count index done s = .ok (as, rest) → P rest →
      P s ∧ ∃ as' bs, as = done.reverse ++ as' ∧ as'.length = count ∧ s = bs.flatten ++ rest ∧
        List.Forall₂ (fun p b => w p.2 p.1 b) (as'.zipIdx index) bs := by
  induction count with
  | zero =>
    intro index done as s rest h hP
    obtain ⟨rfl, rfl⟩ := h
    exact ⟨hP, [], [], by simp⟩
  | succ count ih =>
    intro index done as s rest h hP
    simp only [repeatFrom] at h
    split at h
    · cases h
    · next a s' heq =>
      obtain ⟨hP', as', bs, rfl, hl, rfl, ha⟩ := ih h hP
      obtain ⟨hPs, b, rfl, hb⟩ := hi index s a _ heq hP'
      refine ⟨hPs, a :: as', b :: bs, by simp, by simp [hl], by simp, ?_⟩
      exact .cons hb ha

lemma forall₂_zipIdx_of_times {w : Nat → α → Bytes → Prop}
    (hi : ∀ i s a rest, item i s = .ok (a, rest) → P rest → P s ∧ ∃ b, s = b ++ rest ∧ w i a b)
    (h : times count item s = .ok (as, rest)) (hP : P rest) :
    as.length = count ∧ ∃ bs, s = bs.flatten ++ rest ∧
      List.Forall₂ (fun p b => w p.2 p.1 b) as.zipIdx bs := by
  obtain ⟨-, as', bs, rfl, hl, heq, ha⟩ := forall₂_of_repeatFrom hi h hP
  exact ⟨by simpa using hl, bs, heq, by simpa using ha⟩

lemma forall₂_of_times_of {w : α → Bytes → Prop}
    (hi : ∀ i s a rest, item i s = .ok (a, rest) → P rest → P s ∧ ∃ b, s = b ++ rest ∧ w a b)
    (h : times count item s = .ok (as, rest)) (hP : P rest) :
    as.length = count ∧ ∃ bs, s = bs.flatten ++ rest ∧ List.Forall₂ w as bs := by
  obtain ⟨hl, bs, heq, ha⟩ := forall₂_zipIdx_of_times (w := fun _ => w) hi h hP
  refine ⟨hl, bs, heq, ?_⟩
  rw [← List.zipIdx_map_fst 0 as, List.forall₂_map_left_iff]
  exact ha

lemma forall₂_of_times {w : α → Bytes → Prop} (hi : ∀ i, (item i).Takes w)
    (h : times count item s = .ok (as, rest)) :
    as.length = count ∧ ∃ bs, s = bs.flatten ++ rest ∧ List.Forall₂ w as bs :=
  forall₂_of_times_of (P := fun _ => True) (fun i _ _ _ hok _ => ⟨trivial, hi i hok⟩) h trivial

lemma literal_eq_ok {text : Bytes} {u : Unit} :
    literal text e s = .ok (u, rest) ↔ s = text ++ rest := by
  simp only [literal]
  split
  · next heq =>
    rw [Bytes.cut?_eq_some_iff] at heq
    simp [heq, eq_comm]
  · next heq =>
    have hne : ¬s = text ++ rest := by
      rw [← Bytes.cut?_eq_some_iff, heq]
      simp
    simp [hne]

end Reader

namespace ByteOrder

lemma lowBytes_ofLowBytes (b : Bytes) : lowBytes b.length (ofLowBytes b) = b := by
  induction b with
  | nil => rfl
  | cons a b ih =>
    have hlt : a.toNat < 256 := a.toNat_lt
    have hm : (a.toNat + 256 * ofLowBytes b) % 256 = a.toNat := by omega
    have hd : (a.toNat + 256 * ofLowBytes b) / 256 = ofLowBytes b := by omega
    rw [ofLowBytes, List.length_cons, lowBytes, hd, ih]
    simp

lemma ofLowBytes_lt (b : Bytes) : ofLowBytes b < Nat.pow 256 b.length := by
  induction b with
  | nil => exact Nat.one_pos
  | cons a b ih =>
    have hlt : a.toNat < 256 := a.toNat_lt
    have step : Nat.pow 256 (b.length + 1) = 256 * Nat.pow 256 b.length := Nat.mul_comm ..
    rw [ofLowBytes, List.length_cons]
    omega

lemma encode_decode (order : ByteOrder) (b : Bytes) :
    order.encode b.length (order.decode b) = b := by
  cases order with
  | little => exact lowBytes_ofLowBytes b
  | big =>
    rw [encode, decode, ← List.length_reverse, lowBytes_ofLowBytes, List.reverse_reverse]

lemma decode_lt (order : ByteOrder) (b : Bytes) : order.decode b < Nat.pow 256 b.length := by
  cases order with
  | little => exact ofLowBytes_lt b
  | big =>
    rw [← List.length_reverse]
    exact ofLowBytes_lt b.reverse

lemma length_word (order : ByteOrder) (w : Width) (n : Nat) : (order.word w n).length = w.size := by
  cases order <;> simp [word, encode, length_lowBytes]

end ByteOrder

namespace Width

variable {w : Width}

lemma holds_iff : w.holds i = true ↔ -(w.words / 2 : Nat) ≤ i ∧ i < (w.words / 2 : Nat) := by
  simp [holds]

lemma signed_unsigned (h : w.holds i = true) : w.signed (w.unsigned i) = i := by
  have hp : (0 : Int) < w.words := by cases w <;> decide
  have hn : 0 ≤ i % w.words := Int.emod_nonneg i (by omega)
  rw [signed, unsigned, Int.toNat_of_nonneg hn, Int.emod_bmod]
  rw [holds_iff] at h
  apply Int.bmod_eq_of_le_mul_two
  · cases w <;> simp only [words] at h ⊢ <;> omega
  · cases w <;> simp only [words] at h ⊢ <;> omega

lemma unsigned_lt (w : Width) (i : Int) : w.unsigned i < w.words := by
  have hp : (0 : Int) < w.words := by cases w <;> decide
  have hlt : i % w.words < w.words := Int.emod_lt_of_pos i hp
  rw [unsigned]
  omega

lemma unsigned_signed (h : n < w.words) : w.unsigned (w.signed n) = n := by
  rw [unsigned, signed, Int.bmod_emod, Int.emod_eq_of_lt (by omega) (by omega)]
  simp

lemma holds_signed (w : Width) (n : Nat) : w.holds (w.signed n) = true := by
  have hp : 0 < w.words := by cases w <;> decide
  have hl := @Int.le_bmod n w.words hp
  have hh := @Int.bmod_lt n w.words hp
  rw [holds_iff, signed]
  cases w <;> simp only [words] at hl hh ⊢ <;> omega

lemma maxShortString_lt (w : Width) : Value.maxShortString < w.words - 1 := by cases w <;> decide

lemma nil_lt (w : Width) : ([] : Bytes).length < w.words - 1 :=
  Nat.zero_lt_of_lt w.maxShortString_lt

lemma toInt_ofInt_signed (w : Width) (n : Nat) : (Int64.ofInt (w.signed n)).toInt = w.signed n := by
  have h := w.holds_signed n
  rw [holds_iff] at h
  apply Int64.toInt_ofInt_of_le
  · cases w <;> simp only [words] at h <;> omega
  · cases w <;> simp only [words] at h <;> omega

end Width

namespace Layout

open Reader

variable {ε : Type} (l : Layout)

lemma takes_byte (e : ε) : (readByte e).Takes fun b bytes => bytes = [b] := by
  intro s a rest h
  cases s with
  | nil => cases h
  | cons b s =>
    cases h
    exact ⟨[a], rfl, rfl⟩

lemma reads_byte (e : ε) (b : UInt8) : (readByte e).Reads [b] b := fun _ => rfl

lemma takes_flag : readFlag.Takes fun b bytes => bytes = [flag b] := by
  intro s a rest h
  unfold readFlag at h
  split at h
  · cases h
    exact ⟨[0], rfl, rfl⟩
  · cases h
    exact ⟨[1], rfl, rfl⟩
  · cases h

lemma reads_flag (b : Bool) : readFlag.Reads [flag b] b := by
  intro rest
  cases b <;> rfl

lemma takes_word (w : Width) (e : ε) :
    (l.readWord w e).Takes fun n b => n < w.words ∧ b = l.order.word w n := by
  intro s n rest h
  simp only [readWord] at h
  split at h
  · next hl =>
    cases h
    refine ⟨s.take w.size, (List.take_append_drop _ s).symm, ?_, ?_⟩
    · have hlt := l.order.decode_lt (s.take w.size)
      rwa [hl, ← Width.words_eq] at hlt
    · have heq := l.order.encode_decode (s.take w.size)
      rw [hl] at heq
      exact heq.symm
  · cases h

lemma reads_word (w : Width) (e : ε) (h : n < w.words) :
    (l.readWord w e).Reads (l.order.word w n) n := by
  intro rest
  have hl := l.order.length_word w n
  have hd : l.order.decode (l.order.word w n) = n := by
    rw [ByteOrder.word, ByteOrder.decode_encode, ← Width.words_eq, Nat.mod_eq_of_lt h]
  simp [readWord, List.take_left' hl, List.drop_left' hl, hl, hd]

lemma takes_signedWord (w : Width) (e : ε) (h : l.readWord w e s = .ok (n, rest)) :
    ∃ b, s = b ++ rest ∧ l.order.signedWord w (w.signed n) = .ok b := by
  obtain ⟨b, rfl, hn, rfl⟩ := l.takes_word w e h
  refine ⟨_, rfl, ?_⟩
  rw [ByteOrder.signedWord, if_pos (w.holds_signed n), Width.unsigned_signed hn]

lemma reads_signedWord (w : Width) (e : ε) (h : l.order.signedWord w i = .ok b) :
    w.holds i = true ∧ (l.readWord w e).Reads b (w.unsigned i) := by
  rw [ByteOrder.signedWord] at h
  split at h
  · next hh =>
    cases h
    exact ⟨hh, l.reads_word w e (w.unsigned_lt i)⟩
  · cases h

lemma takes_int : l.readInt.Takes fun i b => l.writeInt i.toInt = .ok b := by
  intro s i rest h
  obtain ⟨n, s', hw, hr⟩ := bind_eq_ok.mp h
  obtain ⟨rfl, rfl⟩ := pure_eq_ok.mp hr
  simp only [Width.toInt_ofInt_signed]
  exact l.takes_signedWord l.int _ hw

lemma reads_int {i : Int64} (h : l.writeInt i.toInt = .ok b) : l.readInt.Reads b i := by
  obtain ⟨hh, hw⟩ := l.reads_signedWord l.int FieldFault.unexpectedEnd h
  intro rest
  rw [readInt, bind_eq_ok]
  refine ⟨_, rest, hw rest, ?_⟩
  rw [pure_eq_ok, Width.signed_unsigned hh]
  exact ⟨Int64.ofInt_toInt i, rfl⟩

lemma readCount_eq_ok {size : Nat} : l.readCount size s = .ok (n, rest) ↔
      ∃ i, l.readInt s = .ok (i, rest) ∧ i.toInt = n ∧ n * size ≤ rest.length := by
  rw [readCount, bind_eq_ok]
  constructor
  · rintro ⟨i, s', hi, h⟩
    rw [check_eq_ok, Int64.lt_iff_toInt_lt] at h
    obtain ⟨hno, h⟩ := h
    change (if _ then _ else _ : Reader FieldFault Nat) s' = _ at h
    rw [check_eq_ok, Bool.not_eq_true', Bool.not_eq_false, Bytes.hasLength_iff] at h
    obtain ⟨hl, rfl, rfl⟩ := h
    refine ⟨i, hi, ?_, hl⟩
    simp only [Int64.toInt_zero] at hno
    omega
  · rintro ⟨i, hi, hn, hl⟩
    refine ⟨i, rest, hi, ?_⟩
    rw [check_eq_ok, Int64.lt_iff_toInt_lt, hn]
    refine ⟨by simp, ?_⟩
    change (if _ then _ else _ : Reader FieldFault Nat) rest = _
    rw [check_eq_ok, pure_eq_ok, Bool.not_eq_true', Bool.not_eq_false, Bytes.hasLength_iff]
    exact ⟨hl, rfl, rfl⟩

lemma takes_count (size : Nat) : (l.readCount size).Takes fun n b => l.writeCount n = .ok b := by
  intro s n rest h
  obtain ⟨i, hi, hn, -⟩ := l.readCount_eq_ok.mp h
  obtain ⟨b, heq, hb⟩ := l.takes_int hi
  rw [hn] at hb
  exact ⟨b, heq, Except.mapError_eq_ok.mpr hb⟩

lemma reads_count {tail : Bytes} (h : l.writeCount n = .ok b) {size : Nat}
    (hl : n * size ≤ tail.length) : l.readCount size (b ++ tail) = .ok (n, tail) := by
  rw [writeCount, Except.mapError_eq_ok] at h
  have hn : (Int64.ofInt n).toInt = n := by
    have heq := l.int.toInt_ofInt_signed (l.int.unsigned n)
    rwa [Width.signed_unsigned (l.reads_signedWord l.int FieldFault.unexpectedEnd h).1] at heq
  rw [readCount_eq_ok]
  exact ⟨.ofInt n, l.reads_int (by rw [hn]; exact h) tail, hn, hl⟩

lemma takes_bytes (length : Nat) :
    (readBytes length).Takes fun s b => s.length = length ∧ b = s := by
  intro s a rest h
  simp only [readBytes] at h
  split at h
  · next hl =>
    rw [Bytes.hasLength_iff] at hl
    cases h
    exact ⟨s.take length, (List.take_append_drop _ s).symm, by simp [hl], rfl⟩
  · cases h

lemma reads_bytes (s : Bytes) : (readBytes s.length).Reads s s := by
  intro rest
  have hl : (s ++ rest).hasLength s.length = true := by simp [Bytes.hasLength_iff]
  simp [readBytes, hl]

def writeOptional : Option Bytes → Bytes
  | none => [0]
  | some s => l.writeString s

lemma takes_string : l.readString.Takes fun s b =>
    (s.getD []).length < l.sizeT.words - 1 ∧ b = l.writeOptional s := by
  intro s a rest h
  rw [readString, bind_eq_ok] at h
  obtain ⟨b, s', hb, h⟩ := h
  obtain ⟨_, rfl, rfl⟩ := takes_byte _ hb
  have hshort := l.sizeT.maxShortString_lt
  by_cases hz : b = 0
  · rw [if_pos hz] at h
    obtain ⟨rfl, rfl⟩ := h
    exact ⟨[b], rfl, Nat.zero_lt_of_lt hshort, by rw [hz]; rfl⟩
  rw [if_neg hz] at h
  by_cases hl : b = 0xff
  · rw [if_pos hl, bind_eq_ok] at h
    obtain ⟨size, s1, hsi, h⟩ := h
    rw [check_eq_ok, map_eq_ok] at h
    obtain ⟨hmi, text, ht, rfl⟩ := h
    obtain ⟨_, rfl, hw, rfl⟩ := l.takes_word _ _ hsi
    obtain ⟨text, rfl, hle, rfl⟩ := takes_bytes _ ht
    have hs : text.length + 1 = size := by omega
    refine ⟨[b] ++ (l.order.word l.sizeT size ++ text), by simp, Nat.lt_sub_of_add_lt (hs ▸ hw), ?_⟩
    change _ = l.writeString text
    rw [writeString, hs, if_neg hmi, hl]
    rfl
  · rw [if_neg hl] at h
    by_cases hm : Value.maxShortString < b.toNat
    · rw [if_pos hm] at h
      exact absurd h throw_ne_ok
    · rw [if_neg hm] at h
      obtain ⟨text, ht, rfl⟩ := map_eq_ok.mp h
      obtain ⟨text, rfl, hle, rfl⟩ := takes_bytes _ ht
      have hp : b.toNat ≠ 0 := fun hb => hz (UInt8.toNat_inj.mp hb)
      have hs : text.length + 1 = b.toNat := by omega
      refine ⟨[b] ++ text, by simp, (by omega : text.length < _), ?_⟩
      change _ = l.writeString text
      rw [writeString, hs, if_pos (by omega)]
      simp

lemma reads_string (h : s.length + 1 < l.sizeT.words) :
    l.readString.Reads (l.writeString s) (some s) := by
  rw [writeString]
  by_cases hs : s.length + 1 ≤ Value.maxShortString
  · have hm : Value.maxShortString = 40 := rfl
    have hn : (s.length + 1).toUInt8.toNat = s.length + 1 := by
      rw [UInt8.toNat_ofNat']
      omega
    rw [if_pos hs]
    apply Reads.bind (b := [(s.length + 1).toUInt8]) (reads_byte _ _)
    rw [if_neg, if_neg, if_neg, hn]
    · exact (reads_bytes s).map some
    · omega
    · intro heq
      have := congrArg UInt8.toNat heq
      simp at this
      omega
    · intro heq
      have := congrArg UInt8.toNat heq
      rw [hn] at this
      simp at this
  · rw [if_neg hs]
    apply Reads.bind (b := [0xff]) (reads_byte _ _)
    apply Reads.bind (l.reads_word _ _ h)
    intro rest
    rw [check_eq_ok]
    exact ⟨hs, (reads_bytes s).map some rest⟩

lemma takes_number : l.readNumber.Takes fun x b => b = l.order.float l.number x := by
  intro s x rest h
  rw [readNumber, bind_eq_ok] at h
  obtain ⟨n, s', hn, h⟩ := h
  obtain ⟨_, rfl, hlt, rfl⟩ := l.takes_word _ _ hn
  cases hw : l.number with
  | eight =>
    rw [hw] at h hlt
    obtain ⟨rfl, rfl⟩ := pure_eq_ok.mp h
    refine ⟨_, rfl, ?_⟩
    simp only [ByteOrder.float]
    rw [Binary64.toNat_bits_ofBitsNat hlt]
  | four =>
    rw [hw] at h hlt
    cases hy : Binary64.ofSingle? n.toUInt32 with
    | none =>
      simp only [hy] at h
      exact absurd h throw_ne_ok
    | some y =>
      simp only [hy] at h
      obtain ⟨rfl, rfl⟩ := pure_eq_ok.mp h
      refine ⟨_, rfl, ?_⟩
      simp only [ByteOrder.float]
      rw [Binary64.toSingle_ofSingle? hy, UInt32.toNat_ofNat_of_lt' hlt]

end Layout

def Binary64.rounded (w : Width) (x : Binary64) : Binary64 :=
  match w with
  | .four => x.roundToSingle
  | .eight => x

def Value.rounded (w : Width) : Value → Value
  | .float x => .float (x.rounded w)
  | v => v

namespace Layout

open Reader

variable (l : Layout)

lemma reads_number (x : Binary64) :
    l.readNumber.Reads (l.order.float l.number x) (x.rounded l.number) := by
  rw [readNumber]
  cases hw : l.number with
  | eight =>
    rw [← List.append_nil (l.order.float .eight x)]
    refine Reads.bind (l.reads_word .eight _ x.bits.toNat_lt) ?_
    simpa [Binary64.ofBitsNat, Binary64.rounded] using Reads.pure x
  | four =>
    rw [← List.append_nil (l.order.float .four x)]
    refine Reads.bind (l.reads_word .four _ x.toSingle.toNat_lt) ?_
    simp only [Nat.toUInt32, UInt32.ofNat_toNat, Binary64.ofSingle?_toSingle]
    exact Reads.pure x.roundToSingle

lemma takes_instruction : l.readInstruction.Takes fun i b => b = l.writeInstruction i := by
  intro s i rest h
  rw [readInstruction, bind_eq_ok] at h
  obtain ⟨n, s', hn, h⟩ := h
  obtain ⟨_, rfl, hlt, rfl⟩ := l.takes_word _ _ hn
  obtain ⟨rfl, rfl⟩ := pure_eq_ok.mp h
  refine ⟨_, rfl, ?_⟩
  change _ = l.order.word .four n.toUInt32.toNat
  rw [UInt32.toNat_ofNat_of_lt' hlt]

lemma reads_instruction (i : Instruction) : l.readInstruction.Reads (l.writeInstruction i) i := by
  rw [← List.append_nil (l.writeInstruction i)]
  refine Reads.bind (l.reads_word .four _ i.word.toNat_lt) ?_
  simpa [Nat.toUInt32] using Reads.pure i

lemma reads_byteOrZero (b : UInt8) : (readByteOrZero : Reader UndumpError UInt8).Reads [b] b :=
  fun _ => rfl

lemma takes_upvalue {i : Nat} {u : UpvalueDescriptor} (h : readUpvalue i s = .ok (u, rest))
    (hr : rest ≠ []) :
    s ≠ [] ∧ ∃ b, s = b ++ rest ∧ u.name = [] ∧ b = [flag u.inStack, u.index] := by
  simp only [readUpvalue, bind_eq_ok, pure_eq_ok, inPlace, mapError_eq_ok] at h
  obtain ⟨inStack, s1, h1, index, s2, h2, rfl, rfl⟩ := h
  obtain ⟨_, rfl, rfl⟩ := takes_flag h1
  cases s1 with
  | nil =>
    cases h2
    exact absurd rfl hr
  | cons b s1 =>
    cases h2
    exact ⟨by simp, [flag inStack, index], rfl, rfl, rfl⟩

lemma reads_upvalue (u : UpvalueDescriptor) (i : Nat) :
    (readUpvalue i).Reads [flag u.inStack, u.index] { u with name := [] } := by
  refine Reads.bind (b := [flag u.inStack]) ((reads_flag u.inStack).mapError _) ?_
  exact Reads.bind (b := [u.index]) (reads_byteOrZero u.index) (Reads.pure _)

lemma takes_constant {i : Nat} (h : l.readConstant i s = .ok (v, rest)) (hr : rest ≠ []) :
    s ≠ [] ∧ ∃ b, s = b ++ rest ∧
      (∀ t, v = .string t → t.length < l.sizeT.words - 1) ∧ l.writeConstant v = .ok b := by
  cases s with
  | nil =>
    have heq : l.readConstant i [] = .ok (.nil, []) := rfl
    cases h
    exact absurd rfl hr
  | cons tag s =>
    refine ⟨by simp, ?_⟩
    rw [readConstant, bind_eq_ok] at h
    obtain ⟨_, _, ht, h⟩ := h
    cases ht
    split at h
    · next ht =>
      obtain ⟨rfl, rfl⟩ := pure_eq_ok.mp h
      exact ⟨[tag], rfl, nofun, by rw [ht]; rfl⟩
    split at h
    · next ht =>
      simp only [map_eq_ok, inPlace, mapError_eq_ok] at h
      obtain ⟨b, hb, rfl⟩ := h
      obtain ⟨_, rfl, rfl⟩ := takes_flag hb
      exact ⟨[tag, flag b], rfl, nofun, by rw [ht]; rfl⟩
    split at h
    · next ht =>
      simp only [map_eq_ok, inPlace, mapError_eq_ok] at h
      obtain ⟨x, hx, rfl⟩ := h
      obtain ⟨_, rfl, rfl⟩ := l.takes_number hx
      exact ⟨tag :: l.order.float l.number x, rfl, nofun, by rw [ht]; rfl⟩
    split at h
    · next ht =>
      rw [bind_eq_ok] at h
      obtain ⟨n, s', hn, h⟩ := h
      obtain ⟨rfl, rfl⟩ := pure_eq_ok.mp h
      rw [inPlace, mapError_eq_ok] at hn
      obtain ⟨b, rfl, hb⟩ := l.takes_signedWord _ _ hn
      refine ⟨tag :: b, rfl, nofun, ?_⟩
      rw [writeConstant, Width.toInt_ofInt_signed, hb, ht]
      rfl
    split at h
    · rw [inPlace, mapError_eq_ok, bind_eq_ok] at h
      obtain ⟨text, s', hte, h⟩ := h
      obtain ⟨_, rfl, hlt, rfl⟩ := l.takes_string hte
      cases text with
      | none => exact absurd h throw_ne_ok
      | some text =>
        rw [check_eq_ok, not_not] at h
        obtain ⟨rfl, rfl, rfl⟩ := h
        exact ⟨_, rfl, fun _ heq => by cases heq; exact hlt, rfl⟩
    · rw [inPlace, mapError_eq_ok] at h
      exact absurd h throw_ne_ok

lemma reads_constant (h : l.writeConstant v = .ok b)
    (hf : ∀ s, v = .string s → s.length + 1 < l.sizeT.words) (i : Nat) :
    (l.readConstant i).Reads b (v.rounded l.number) := by
  cases v with
  | nil =>
    cases h
    exact (reads_byteOrZero 0).bind (Reads.pure Value.nil)
  | bool b =>
    cases h
    exact (reads_byteOrZero 1).bind (((reads_flag b).mapError _).map _)
  | float x =>
    cases h
    exact (reads_byteOrZero 3).bind (((l.reads_number x).mapError _).map _)
  | integer n =>
    rw [writeConstant] at h
    cases hn : l.order.signedWord l.integer n.toInt with
    | error e =>
      rw [hn] at h
      cases h
    | ok word =>
      rw [hn] at h
      cases h
      obtain ⟨hh, hw⟩ := l.reads_signedWord l.integer FieldFault.unexpectedEnd hn
      refine (reads_byteOrZero 0x13).bind ?_
      rw [← List.append_nil word]
      refine (hw.mapError _).bind ?_
      rw [Width.signed_unsigned hh, Int64.ofInt_toInt]
      exact Reads.pure (Value.integer n)
  | string s =>
    cases h
    have hc : (Value.string s).tag = 0x04 ∨ (Value.string s).tag = 0x14 := by
      rw [Value.tag]
      split
      · exact .inr rfl
      · exact .inl rfl
    have hr : (inPlace (.constant i) do
        match ← l.readString with
        | none => throw .noString
        | some s' =>
          if (Value.string s').tag ≠ (Value.string s).tag then
            throw (.wrongStringTag (Value.string s).tag s'.length)
          return Value.string s').Reads (l.writeString s) (Value.string s) := by
      apply Reads.mapError
      rw [← List.append_nil (l.writeString s)]
      refine (l.reads_string (hf s rfl)).bind ?_
      intro rest
      rw [check_eq_ok]
      exact ⟨not_not.mpr rfl, rfl⟩
    rcases hc with ht | ht <;> rw [ht] at hr ⊢ <;> exact hr

lemma takes_local (i : Nat) : (l.readLocal i).Takes fun p b =>
    p.1.name.length < l.sizeT.words - 1 ∧
      ∃ name start stop, p.1.name = name.getD [] ∧ p.2 = name.isSome ∧
      l.writeInt p.1.startPC.toInt = .ok start ∧ l.writeInt p.1.endPC.toInt = .ok stop ∧
      b = l.writeOptional name ++ (start ++ stop) := by
  intro s p rest h
  simp only [readLocal, bind_eq_ok, pure_eq_ok, inPlace, mapError_eq_ok] at h
  obtain ⟨name, s1, h1, startPC, s2, h2, endPC, s3, h3, rfl, rfl⟩ := h
  obtain ⟨_, rfl, hlt, rfl⟩ := l.takes_string h1
  obtain ⟨start, rfl, hs⟩ := l.takes_int h2
  obtain ⟨stop, rfl, hst⟩ := l.takes_int h3
  exact ⟨_, by simp, hlt, name, start, stop, rfl, rfl, hs, hst, rfl⟩

end Layout

namespace Layout

variable (l : Layout)

lemma length_of_writeInt {i : Int} (h : l.writeInt i = .ok b) : b.length = l.int.size := by
  rw [writeInt, ByteOrder.signedWord] at h
  split at h
  · cases h
    exact l.order.length_word _ _
  · cases h

lemma writeCount_ne_nil {n : Nat} (h : l.writeCount n = .ok b) : b ≠ [] := by
  have hl := l.length_of_writeInt (Except.mapError_eq_ok.mp h)
  rintro rfl
  cases hw : l.int <;> simp [hw, Width.size] at hl

lemma ne_nil_of_readCount {size : Nat} {x : Nat × Bytes} (h : l.readCount size s = .ok x) :
    s ≠ [] := by
  obtain ⟨b, rfl, hb⟩ := l.takes_count size h
  exact List.append_ne_nil_of_left_ne_nil (l.writeCount_ne_nil hb) _

lemma writeConstants_eq_ok {ks : List Value} :
    l.writeConstants ks = .ok b ↔ ∃ count bs, l.writeCount ks.length = .ok count ∧
      List.Forall₂ (fun v b => l.writeConstant v = .ok b) ks bs ∧ count ++ bs.flatten = b := by
  have hz : ∀ bs, List.Forall₂ (fun p b => l.writeConstant p.1 = .ok b) ks.zipIdx bs ↔
      List.Forall₂ (fun v b => l.writeConstant v = .ok b) ks bs := fun bs => by
    conv_rhs => rw [← List.zipIdx_map_fst 0 ks, List.forall₂_map_left_iff]
  simp only [writeConstants, Except.bind_eq_ok, Except.mapM_eq_ok, Except.mapError_eq_ok, hz, pure,
    Except.pure, Except.ok.injEq, exists_and_left]

lemma writeCode_eq_ok {code : List Instruction} :
    l.writeCode code = .ok b ↔ ∃ count, l.writeCount code.length = .ok count ∧
      count ++ code.flatMap l.writeInstruction = b := by
  simp only [writeCode, Except.bind_eq_ok, pure, Except.pure, Except.ok.injEq]

lemma writeUpvalues_eq_ok :
    l.writeUpvalues us = .ok b ↔ ∃ count, l.writeCount us.length = .ok count ∧
      count ++ us.flatMap (fun u => [flag u.inStack, u.index]) = b := by
  simp only [writeUpvalues, Except.bind_eq_ok, pure, Except.pure, Except.ok.injEq]

lemma writeLineInfo_eq_ok {lines : List Int64} :
    l.writeLineInfo lines = .ok b ↔ ∃ count bs, l.writeCount lines.length = .ok count ∧
      List.Forall₂ (fun (i : Int64) b => l.writeInt i.toInt = .ok b) lines bs ∧
      count ++ bs.flatten = b := by
  simp only [writeLineInfo, Except.bind_eq_ok, Except.mapM_eq_ok, Except.mapError_eq_ok, pure,
    Except.pure, Except.ok.injEq, exists_and_left]

def WritesLocal (isAbsent : Bool) (v : LocalVariable) (b : Bytes) : Prop :=
  ∃ start stop, l.writeInt v.startPC.toInt = .ok start ∧ l.writeInt v.endPC.toInt = .ok stop ∧
    l.writeName isAbsent v.name ++ (start ++ stop) = b

lemma writeLocals_eq_ok {absent : List Nat} {vs : List LocalVariable} :
    l.writeLocals absent vs = .ok b ↔ ∃ count bs, l.writeCount vs.length = .ok count ∧
      List.Forall₂ (fun p b => l.WritesLocal (absent.contains p.2) p.1 b) vs.zipIdx bs ∧
      count ++ bs.flatten = b := by
  simp only [writeLocals, WritesLocal, Except.bind_eq_ok, Except.mapM_eq_ok, Except.mapError_eq_ok,
    pure, Except.pure, Except.ok.injEq, exists_and_left]

def namesWritten (form : DumpForm) (us : List UpvalueDescriptor) : Bool :=
  us.any (fun u => !u.name.isEmpty) || form.upvalueNamesWritten

lemma writeUpvalueNames_eq_ok {form : DumpForm} : l.writeUpvalueNames form us = .ok b ↔
      if namesWritten form us then
        ∃ count, l.writeCount us.length = .ok count ∧ count ++ us.zipIdx.flatMap (fun p =>
            l.writeName (form.absentUpvalueNames.contains p.2) p.1.name) = b
      else l.writeCount 0 = .ok b := by
  rw [writeUpvalueNames, ← namesWritten]
  split <;> simp only [Except.bind_eq_ok, pure, Except.pure, Except.ok.injEq]

lemma writeFunctions_eq_ok {fs : List Prototype} : l.writeFunctions parent fs = .ok b ↔ ∃ bs,
      List.Forall₂ (fun f b => l.writeFunction parent f = .ok b) fs bs ∧ bs.flatten = b := by
  induction fs generalizing b with
  | nil => simp [writeFunctions]
  | cons f fs ih =>
    simp only [writeFunctions, Except.bind_eq_ok, ih, pure, Except.pure, Except.ok.injEq,
      List.forall₂_cons_left_iff]
    constructor
    · rintro ⟨head, hh, _, ⟨bs, hbs, rfl⟩, rfl⟩
      exact ⟨head :: bs, ⟨head, bs, hh, hbs, rfl⟩, rfl⟩
    · rintro ⟨_, ⟨head, bs, hh, hbs, rfl⟩, rfl⟩
      exact ⟨head, hh, _, ⟨bs, hbs, rfl⟩, rfl⟩

def sourceWritten (parent : ChunkName) (f : Prototype) : Bool :=
  (f.form.getD .plain).sourceWritten || (!f.source.isEmpty && f.source != parent)

structure Parts where
  first : Bytes
  last : Bytes
  code : Bytes
  constants : Bytes
  descriptors : Bytes
  count : Bytes
  nested : Bytes
  lines : Bytes
  locals : Bytes
  names : Bytes

structure Parts.Written (parts : Parts) (f : Prototype) : Prop where
  first : l.writeInt f.lineDefined.toInt = .ok parts.first
  last : l.writeInt f.lastLineDefined.toInt = .ok parts.last
  code : l.writeCode f.code = .ok parts.code
  constants : l.writeConstants f.constants = .ok parts.constants
  descriptors : l.writeUpvalues f.upvalues = .ok parts.descriptors
  count : l.writeCount f.functions.length = .ok parts.count
  nested : l.writeFunctions f.source f.functions = .ok parts.nested
  lines : l.writeLineInfo f.lineInfo = .ok parts.lines
  locals : l.writeLocals (f.form.getD .plain).absentLocalNames f.localVariables = .ok parts.locals
  names : l.writeUpvalueNames (f.form.getD .plain) f.upvalues = .ok parts.names

def Parts.join (parts : Parts) (name : Bytes) (f : Prototype) : Bytes :=
  name ++ (parts.first ++ (parts.last ++ ([f.numParams, flag f.isVararg, f.maxStackSize] ++
    (parts.code ++ (parts.constants ++ (parts.descriptors ++ (parts.count ++ (parts.nested ++
      (parts.lines ++ (parts.locals ++ parts.names))))))))))

lemma writeFunction_eq_ok {f : Prototype} :
    l.writeFunction parent f = .ok b ↔ ∃ parts : Parts, parts.Written l f ∧
      parts.join (if sourceWritten parent f then l.writeString f.source else [0]) f = b := by
  cases f
  simp only [writeFunction, Except.bind_eq_ok, Except.mapError_eq_ok, pure, Except.pure,
    Except.ok.injEq]
  constructor
  · rintro ⟨first, hf, last, hla, code, hcode, constants, hc, descriptors,
      hd, count, hco, nested, hn, lines, hli, locals, hl, names, hna,
      rfl⟩
    exact ⟨⟨first, last, code, constants, descriptors, count, nested, lines, locals, names⟩,
      ⟨hf, hla, hcode, hc, hd, hco, hn, hli, hl, hna⟩,
      rfl⟩
  · rintro ⟨parts, h, rfl⟩
    exact ⟨_, h.first, _, h.last, _, h.code, _, h.constants, _, h.descriptors, _, h.count, _,
      h.nested, _, h.lines, _, h.locals, _, h.names, rfl⟩

end Layout

end LuaBytecode
