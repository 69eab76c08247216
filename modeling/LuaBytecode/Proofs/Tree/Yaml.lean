import LuaBytecode.Grammar
import LuaBytecode.Proofs.Text.Quoted
import LuaBytecode.Proofs.Tree.Children
import LuaBytecode.Tree.Yaml

namespace LuaBytecode

open Utf8 Yaml

variable {x n : Nat} {s : Bytes} {p : Piece} {xs : List Nat}

namespace Yaml

/-- The letters of escapes in a double-quoted scalar, and the characters that they stand for. -/
def escapeLetters : List (Char × Nat) :=
  [('0', 0x00), ('a', 0x07), ('b', 0x08), ('t', 0x09), ('\t', 0x09), ('n', 0x0a), ('v', 0x0b),
   ('f', 0x0c), ('r', 0x0d), ('e', 0x1b), (' ', 0x20), ('"', 0x22), ('/', 0x2f), ('\\', 0x5c),
   ('N', 0x85), ('_', 0xa0), ('L', 0x2028), ('P', 0x2029)]

def codeLetters : List (Char × Nat) := [('x', 2), ('u', 4), ('U', 8)]

def escape? : Bytes → Option (Bytes × Nat)
  | [] => none
  | c :: rest =>
    match escapeLetters.find? fun p => c = byte p.1 with
    | some (_, x) => some (encode x, 1)
    | none =>
      match codeLetters.find? fun p => c = byte p.1 with
      | some (_, count) => (hexDigits? count rest).map fun x => (encode x, count + 1)
      | none => none

/-- The text of a double-quoted scalar on one line, from behind the opening quote to its end. -/
def scalarFrom : (skip : Nat) → Bytes → Option Bytes
  | _, [] => none
  | skip + 1, _ :: rest => scalarFrom skip rest
  | 0, c :: rest =>
    if c = byte '"' then if rest.isEmpty then some [] else none
    else if c = byte '\\' then
      (escape? rest).bind fun r => (scalarFrom r.2 rest).map (r.1 ++ ·)
    else
      (decode? (c :: rest)).bind fun r =>
        if r.1 < 0x20 && r.1 != 0x09 then none
        else (scalarFrom (r.2 - 1) rest).map (encode r.1 ++ ·)

def scalar? : Bytes → Option Bytes
  | [] => none
  | c :: rest => if c = byte '"' then scalarFrom 0 rest else none

lemma escape?_of_readEscape {r : Bytes × Nat} (h : readEscape s = some r) : escape? s = some r := by
  cases s with
  | nil => cases h
  | cons c rest =>
    by_cases hs : c = byte '"' ∨ c = byte '\\'
    · rcases hs with rfl | rfl <;> exact h
    · simp only [readEscape, Bool.or_eq_true, decide_eq_true_eq, hs, if_false] at h
      repeat' split at h
      all_goals
        subst_vars
        first | exact h | cases h

end Yaml

namespace Bytes

lemma hexNat_split (h : 16 ≤ x) : hexNat x = hexNat (x / 16) ++ [hexDigit x] := by
  rw [hexNat, Nat.toDigits_of_base_le (by decide) h, List.map_append]
  rfl

lemma hexNat_of_lt (h : x < 16) : hexNat x = [hexDigit x] := by
  rw [hexNat, Nat.toDigits_of_lt_base h, hexDigit, Nat.mod_eq_of_lt h]
  rfl

lemma zeroPad_hexNat (n x : Nat) :
    zeroPad (n + 2) (hexNat x) = zeroPad (n + 1) (hexNat (x / 16)) ++ [hexDigit x] := by
  by_cases h : x < 16
  · rw [hexNat_of_lt h, Nat.div_eq_of_lt h]
    simp only [zeroPad, hexNat_of_lt (x := 0) (by decide), List.length_singleton,
      Nat.add_sub_cancel]
    rw [show n + 2 - 1 = n + 1 from rfl, List.replicate_succ']
    rfl
  · rw [hexNat_split (Nat.not_lt.mp h)]
    simp only [zeroPad, List.length_append, List.length_singleton, List.append_assoc]
    congr 2
    omega

lemma zeroPad_hexNat_value (h : x < 16 ^ (n + 1)) : let digits := zeroPad (n + 1) (hexNat x)
    digits.length = n + 1 ∧ digits.all isHexDigit = true ∧
      digits.foldl (fun v c => v * 16 + (hexValue? c).getD 0) 0 = x := by
  induction n generalizing x with
  | zero =>
    have hd := hexValue?_digitChar (x % 16) (Nat.mod_lt _ (by decide))
    rw [hexNat_of_lt h]
    simp [zeroPad, hexDigit, isHexDigit, hd]
    omega
  | succ n ih =>
    have hd := hexValue?_digitChar (x % 16) (Nat.mod_lt _ (by decide))
    obtain ⟨hl, ha, hv⟩ := ih (x := x / 16) (by omega)
    rw [zeroPad_hexNat]
    simp [hexDigit, hl, ha, hv, isHexDigit, hd]
    omega

lemma hexDigits?_zeroPad (h : x < 16 ^ (n + 1)) (t : Bytes) :
    hexDigits? (n + 1) (zeroPad (n + 1) (hexNat x) ++ t) = some x := by
  obtain ⟨hl, ha, hv⟩ := zeroPad_hexNat_value h
  simp only [hexDigits?, List.take_left' hl, hl, ha, hv]
  rfl

lemma hex_eq (c : UInt8) : hex c = zeroPad 2 (hexNat c.toNat) := by
  have hc : c.toNat < 256 := c.toNat_lt
  rw [zeroPad_hexNat, hexNat_of_lt (by omega)]
  rfl

end Bytes

/-- A character of a text, or a byte at which no character starts. -/
inductive Piece where
  | char (x : Nat)
  | byte (c : UInt8)

namespace Piece

def bytes : Piece → Bytes
  | .char x => encode x
  | .byte c => [c]

def isChar : Piece → Bool
  | .char _ => true
  | .byte _ => false

def WellFormed : Piece → Prop
  | .char x => IsChar x
  | .byte c => 0x80 ≤ c.toNat

def spelling : Piece → Bytes
  | .char x => (if x < 0x80 then Quoted.short? x.toUInt8 else none).getD
      (if isPrintableChar x then encode x else Shown.codePointEscape x)
  | .byte c => Quoted.hexEscape c

/-- The characters in the place of a piece after its spelling was read. The reader leaves two
escapes as they stand and takes a byte for the character of its number. -/
def reread : Piece → List Nat
  | .char x => if x = 0x07 then [0x5c, 0x61] else if x = 0x09 then [0x5c, 0x74] else [x]
  | .byte c => [c.toNat]

end Piece

def piecesFrom : (skip : Nat) → Bytes → List Piece
  | _, [] => []
  | skip + 1, _ :: rest => piecesFrom skip rest
  | 0, c :: rest =>
    match decode? (c :: rest) with
    | none => .byte c :: piecesFrom 0 rest
    | some (x, size) => .char x :: piecesFrom (size - 1) rest

lemma flatMap_bytes_piecesFrom (skip : Nat) (s : Bytes) :
    (piecesFrom skip s).flatMap Piece.bytes = s.drop skip := by
  fun_induction piecesFrom skip s with
  | case1 => simp
  | case2 skip c rest ih => exact ih
  | case3 c rest _ ih => simpa [Piece.bytes] using ih
  | case4 c rest x size h ih =>
    obtain ⟨-, hs, -⟩ := eq_encode_append h
    rw [List.flatMap_cons, ih, List.drop_zero, hs]
    rfl

lemma validFrom_eq (skip : Nat) (s : Bytes) :
    validFrom skip s = (piecesFrom skip s).all Piece.isChar := by
  fun_induction piecesFrom skip s with
  | case1 => simp [validFrom]
  | case2 skip c rest ih => exact ih
  | case3 c rest h ih => simp [validFrom, h, Piece.isChar]
  | case4 c rest x size h ih => simp [validFrom, h, Piece.isChar, ih]

lemma wellFormed_of_mem {skip : Nat} (h : p ∈ piecesFrom skip s) : p.WellFormed := by
  fun_induction piecesFrom skip s with
  | case1 => cases h
  | case2 skip c rest ih => exact ih h
  | case3 c rest hd ih =>
    rcases List.mem_cons.mp h with rfl | hm
    · refine Nat.le_of_not_lt fun hlt => ?_
      have hl : c < 0x80 := hlt
      simp [decode?, hl] at hd
    · exact ih hm
  | case4 c rest x size hd ih =>
    rcases List.mem_cons.mp h with rfl | hm
    · exact (eq_encode_append hd).1
    · exact ih hm

lemma spellFrom_eq (skip : Nat) (done s : Bytes) :
    Shown.spellFrom skip done s = done.reverse ++ (piecesFrom skip s).flatMap Piece.spelling := by
  fun_induction Shown.spellFrom skip done s with
  | case1 => simp [piecesFrom]
  | case2 skip done c rest ih => exact ih
  | case3 done c rest h ih => simp [piecesFrom, h, ih, Piece.spelling]
  | case4 done c rest x size h s ih =>
    obtain ⟨hc, hsp, hsi⟩ := eq_encode_append h
    have ht : (c :: rest).take size = encode x := by rw [hsp, hsi, List.take_left]
    have hsh : Shown.short? size c = if x < 0x80 then Quoted.short? x.toUInt8 else none := by
      by_cases hx : x < 0x80
      · rw [(isChar_of_lt hx).2] at hsp hsi
        rw [if_pos hx, Shown.short?, hsi, List.length_singleton, if_pos rfl, (List.cons.inj hsp).1]
      · have htw := (le_of_mem_encode hc (Nat.not_lt.mp hx)).1
        rw [if_neg hx, Shown.short?, if_neg (by omega)]
    have hs : s = (Piece.char x).spelling := by
      simp only [s, hsh, ht, Piece.spelling]
      cases (if x < 0x80 then Quoted.short? x.toUInt8 else none) <;> rfl
    rw [ih, hs]
    simp [piecesFrom, h]

/-- A spelling of a character: the character itself, or an escape that stands for it. -/
inductive Spelled (x : Nat) : (spelling : Bytes) → Prop
  | plain (low : 0x20 ≤ x) (quote : x ≠ 0x22) (slash : x ≠ 0x5c) : Spelled x (encode x)
  | escape {e : Bytes} (read : ∀ t, readEscape (e ++ t) = some (encode x, e.length)) :
      Spelled x (byte '\\' :: e)

lemma le_of_isPrintableChar (h : isPrintableChar x = true) : 0x20 ≤ x :=
  of_decide_eq_true ((Bool.and_eq_true _ _).mp h).1

lemma Spelled.hex {letter : UInt8} (hx : x < 16 ^ (n + 1)) (hl : ∀ t, readEscape (letter :: t) =
      (hexDigits? (n + 1) t).map fun x => (encode x, n + 1 + 1)) :
    Spelled x (byte '\\' :: letter :: Bytes.zeroPad (n + 1) (Bytes.hexNat x)) := by
  refine .escape fun t => ?_
  rw [List.cons_append, hl, Bytes.hexDigits?_zeroPad hx, List.length_cons,
    (Bytes.zeroPad_hexNat_value hx).1]
  rfl

lemma spelled_codePoint (hx : x < 0x110000) : Spelled x (Shown.codePointEscape x) := by
  unfold Shown.codePointEscape
  split
  · next h =>
    have : x < 16 ^ 2 := by simp at h; omega
    exact .hex this fun t => rfl
  · split
    · next h => exact .hex (n := 3) h fun t => rfl
    · exact .hex (n := 7) (by omega) fun t => rfl

lemma Spelled.of_short {c : UInt8} (h : Quoted.short? c = some s) (hc : c ≠ 0x07 ∧ c ≠ 0x09) :
    Spelled c.toNat s := by
  unfold Quoted.short? at h
  split at h
  · next hs =>
    cases h
    simp only [Bool.or_eq_true, decide_eq_true_eq] at hs
    rcases hs with rfl | rfl <;> exact .escape (e := [_]) fun t => rfl
  · next hs =>
    split at h
    · next hp =>
      cases h
      simp only [isPrintable, Bool.and_eq_true, decide_eq_true_eq, UInt8.le_iff_toNat_le,
        UInt8.lt_iff_toNat_lt] at hp
      have he : encode c.toNat = [c] := by
        rw [(isChar_of_lt (Nat.lt_trans hp.2 (by decide))).2, toUInt8_of_eq rfl]
      rw [← he]
      refine .plain hp.1 (fun hq => hs ?_) fun hq => hs ?_
      · simp [UInt8.toNat_inj.mp (hq.trans (show 0x22 = (byte '"').toNat from rfl))]
      · simp [UInt8.toNat_inj.mp (hq.trans (show 0x5c = (byte '\\').toNat from rfl))]
    · obtain ⟨letter, hl, rfl⟩ := Option.map_eq_some_iff.mp h
      unfold Quoted.controlLetter? at hl
      repeat' split at hl
      all_goals
        cases hl
        try subst c
      · exact absurd rfl hc.1
      · exact .escape (e := [byte 'b']) fun t => rfl
      · exact .escape (e := [byte 'f']) fun t => rfl
      · exact .escape (e := [byte 'n']) fun t => rfl
      · exact .escape (e := [byte 'r']) fun t => rfl
      · exact absurd rfl hc.2
      · exact .escape (e := [byte 'v']) fun t => rfl

lemma spelled (h : IsChar x) (hx : x ≠ 0x07 ∧ x ≠ 0x09) : Spelled x (Piece.char x).spelling := by
  rw [Piece.spelling]
  cases hs : (if x < 0x80 then Quoted.short? x.toUInt8 else none) with
  | some s =>
    split at hs
    · next hlt =>
      have hn : x.toUInt8.toNat = x := by simp; omega
      have hne : x.toUInt8 ≠ 0x07 ∧ x.toUInt8 ≠ 0x09 := by
        rw [ne_eq, ne_eq, ← UInt8.toNat_inj, ← UInt8.toNat_inj, hn]
        exact hx
      exact hn ▸ Spelled.of_short hs hne
    · cases hs
  | none =>
    rw [Option.getD_none]
    split
    · next hp =>
      have hse : x ≠ 0x22 ∧ x ≠ 0x5c := by
        constructor <;> (rintro rfl; cases hs)
      exact .plain (le_of_isPrintableChar hp) hse.1 hse.2
    · exact spelled_codePoint h.lt

lemma readQuotedFrom_skip (e : Bytes) (done t : Bytes) :
    readQuotedFrom e.length done (e ++ t) = readQuotedFrom 0 done t := by
  induction e with
  | nil => rfl
  | cons c e ih => exact ih

lemma readQuotedFrom_plain (h : byte '\\' ∉ s) (done t : Bytes) :
    readQuotedFrom 0 done (s ++ t) = readQuotedFrom 0 (s.reverse ++ done) t := by
  induction s generalizing done with
  | nil => rfl
  | cons c s ih =>
    rw [List.mem_cons, not_or] at h
    rw [List.cons_append, readQuotedFrom, if_neg (Ne.symm h.1), ih h.2]
    simp

lemma readQuotedFrom_escape {e out : Bytes}
    (h : ∀ t, readEscape (e ++ t) = some (out, e.length)) (done t : Bytes) :
    readQuotedFrom 0 done (byte '\\' :: e ++ t) = readQuotedFrom 0 (out.reverse ++ done) t := by
  rw [List.cons_append, readQuotedFrom, if_pos rfl, h]
  exact readQuotedFrom_skip e _ t

lemma scalarFrom_skip (e t : Bytes) : scalarFrom e.length (e ++ t) = scalarFrom 0 t := by
  induction e with
  | nil => rfl
  | cons c e ih => exact ih

lemma eq_of_mem_encode {b : UInt8} (h : IsChar x) (hb : b < 0x80) (hm : b ∈ encode x) :
    x = b.toNat := by
  by_cases hx : x < 0x80
  · rw [(isChar_of_lt hx).2, List.mem_singleton] at hm
    rw [hm]
    simp
    omega
  · exact absurd hb (UInt8.not_lt.mpr ((le_of_mem_encode h (Nat.not_lt.mp hx)).2 b hm))

lemma Spelled.readQuotedFrom {x : Nat} {s : Bytes} (hs : Spelled x s) (h : IsChar x)
    (done t : Bytes) : readQuotedFrom 0 done (s ++ t) =
      readQuotedFrom 0 ((encode x).reverse ++ done) t := by
  cases hs with
  | plain low quote slash =>
    exact readQuotedFrom_plain (fun hm => slash (eq_of_mem_encode h (by decide) hm)) done t
  | escape read => exact readQuotedFrom_escape read done t

lemma readQuotedFrom_piece (hp : p.WellFormed) (done t : Bytes) :
    readQuotedFrom 0 done (p.spelling ++ t) =
      readQuotedFrom 0 ((p.reread.flatMap encode).reverse ++ done) t := by
  cases p with
  | byte c =>
    have hc : c.toNat < 256 := c.toNat_lt
    have hs : Spelled c.toNat (Piece.byte c).spelling := by
      rw [Piece.spelling, Quoted.hexEscape, Bytes.hex_eq]
      exact Spelled.hex (n := 1) hc fun t => rfl
    rw [hs.readQuotedFrom (isChar_of_two hp (by omega)), Piece.reread,
      List.flatMap_singleton]
  | char x =>
    by_cases hb : x = 0x07
    · subst hb
      rfl
    · by_cases ht : x = 0x09
      · subst ht
        rfl
      · rw [(spelled hp ⟨hb, ht⟩).readQuotedFrom hp, Piece.reread, if_neg hb, if_neg ht,
          List.flatMap_singleton]

lemma scalarFrom_char (h : IsChar x) (t : Bytes) : scalarFrom 0 ((Piece.char x).spelling ++ t) =
      (scalarFrom 0 t).map (encode x ++ ·) := by
  by_cases hx : x = 0x07 ∨ x = 0x09
  · rcases hx with rfl | rfl <;> rfl
  have hs := spelled h (not_or.mp hx)
  generalize (Piece.char x).spelling = s at hs
  cases hs with
  | plain low quote slash =>
    have hd := h.decode t
    have hn {b : UInt8} (hb : b < 0x80) (hne : x ≠ b.toNat) : b ∉ encode x :=
      fun hm => hne (eq_of_mem_encode h hb hm)
    have hq := hn (b := byte '"') (by decide) quote
    have hsl := hn (b := byte '\\') (by decide) slash
    have hp := length_encode_pos x
    generalize hcs : encode x = cs at *
    cases cs with
    | nil => cases hp
    | cons c cs =>
      rw [List.mem_cons, not_or] at hq hsl
      have hl : ¬((x < 0x20 && x != 0x09) = true) := by simp; omega
      rw [List.cons_append] at hd ⊢
      rw [scalarFrom, if_neg (Ne.symm hq.1), if_neg (Ne.symm hsl.1), hd,
        Option.bind_some, if_neg hl, List.length_cons, Nat.add_sub_cancel, scalarFrom_skip, hcs]
  | escape read =>
    rw [List.cons_append, scalarFrom, if_neg (by decide), if_pos rfl,
      escape?_of_readEscape (read t), Option.bind_some, scalarFrom_skip]

lemma isChar_of_mem_reread (hp : p.WellFormed) :
    ∀ x ∈ p.reread, IsChar x ∧ x ≠ 0x07 ∧ x ≠ 0x09 := by
  have hl {x : Nat} (h : x = 0x5c ∨ x = 0x61 ∨ x = 0x74) : IsChar x ∧ x ≠ 0x07 ∧ x ≠ 0x09 :=
    ⟨(isChar_of_lt (by omega)).1, by omega, by omega⟩
  intro y hy
  cases p with
  | byte c =>
    have hc : 0x80 ≤ c.toNat ∧ c.toNat < 256 := ⟨hp, c.toNat_lt⟩
    rw [List.mem_singleton.mp hy]
    exact ⟨isChar_of_two hp (by omega), by omega, by omega⟩
  | char x =>
    rw [Piece.reread] at hy
    split at hy
    · exact hl (by simp at hy; omega)
    · split at hy
      · exact hl (by simp at hy; omega)
      · next hb ht => exact List.mem_singleton.mp hy ▸ ⟨hp, hb, ht⟩

lemma readQuotedFrom_pieces {ps : List Piece} (hps : ∀ p ∈ ps, p.WellFormed) (done : Bytes) :
    readQuotedFrom 0 done (ps.flatMap Piece.spelling) =
      done.reverse ++ (ps.flatMap Piece.reread).flatMap encode := by
  induction ps generalizing done with
  | nil => simp [readQuotedFrom]
  | cons p ps ih =>
    rw [List.forall_mem_cons] at hps
    rw [List.flatMap_cons, readQuotedFrom_piece hps.1, ih hps.2]
    simp

lemma piecesFrom_skip (s t : Bytes) : piecesFrom s.length (s ++ t) = piecesFrom 0 t := by
  induction s with
  | nil => rfl
  | cons c s ih => exact ih

lemma piecesFrom_encode (hxs : ∀ x ∈ xs, IsChar x) :
    piecesFrom 0 (xs.flatMap encode) = xs.map Piece.char := by
  induction xs with
  | nil => rfl
  | cons x xs ih =>
    rw [List.forall_mem_cons] at hxs
    have hd := hxs.1.decode (xs.flatMap encode)
    have hp := length_encode_pos x
    rw [List.flatMap_cons]
    generalize encode x = cs at *
    cases cs with
    | nil => cases hp
    | cons c cs =>
      rw [List.cons_append] at hd ⊢
      simp only [piecesFrom, hd]
      rw [List.length_cons, Nat.add_sub_cancel, piecesFrom_skip, ih hxs.2, List.map_cons]

lemma scalarFrom_chars (hxs : ∀ x ∈ xs, IsChar x) :
    scalarFrom 0 ((xs.map Piece.char).flatMap Piece.spelling ++ [byte '"']) =
      some (xs.flatMap encode) := by
  induction xs with
  | nil => rfl
  | cons x xs ih =>
    rw [List.forall_mem_cons] at hxs
    rw [List.map_cons, List.flatMap_cons, List.append_assoc, scalarFrom_char hxs.1, ih hxs.2]
    rfl

lemma scalar?_quotedText (raw : Bytes) : ∃ xs, (∀ x ∈ xs, IsChar x ∧ x ≠ 0x07 ∧ x ≠ 0x09) ∧
    xs = (piecesFrom 0 raw).flatMap Piece.reread ∧
    scalar? (quotedText raw) = some (xs.flatMap encode) := by
  have hpi : ∀ p ∈ piecesFrom 0 raw, p.WellFormed := fun p hp => wellFormed_of_mem hp
  have hxs : ∀ x ∈ (piecesFrom 0 raw).flatMap Piece.reread, IsChar x ∧ x ≠ 0x07 ∧ x ≠ 0x09 := by
    intro x hx
    obtain ⟨p, hp, hx⟩ := List.mem_flatMap.mp hx
    exact isChar_of_mem_reread (hpi p hp) x hx
  have hr : readQuotedFrom 0 [] (Shown.spellFrom 0 [] raw) =
      ((piecesFrom 0 raw).flatMap Piece.reread).flatMap encode := by
    rw [spellFrom_eq]
    exact readQuotedFrom_pieces hpi []
  refine ⟨_, hxs, rfl, ?_⟩
  rw [quotedText, hr, shown, spellFrom_eq, piecesFrom_encode fun x hx => (hxs x hx).1]
  exact scalarFrom_chars fun x hx => (hxs x hx).1

lemma scalar?_quotedText_iff (raw : Bytes) : scalar? (quotedText raw) = some raw ↔
    isValid raw = true ∧ 0x07 ∉ raw ∧ 0x09 ∉ raw := by
  obtain ⟨xs, hxs, hr, hs⟩ := scalar?_quotedText raw
  have hra := flatMap_bytes_piecesFrom 0 raw
  rw [hs, Option.some_inj, isValid, validFrom_eq]
  constructor
  · rintro rfl
    have hn {b : UInt8} (hb : b < 0x80) (hne : ∀ x ∈ xs, x ≠ b.toNat) : b ∉ xs.flatMap encode := by
      intro hm
      obtain ⟨x, hx, hm⟩ := List.mem_flatMap.mp hm
      exact hne x hx (eq_of_mem_encode (hxs x hx).1 hb hm)
    rw [piecesFrom_encode fun x hx => (hxs x hx).1]
    exact ⟨by simp [Piece.isChar], hn (by decide) fun x hx => (hxs x hx).2.1,
      hn (by decide) fun x hx => (hxs x hx).2.2⟩
  · rintro ⟨hv, hbe, ht⟩
    have hk : ∀ p ∈ piecesFrom 0 raw, p.reread.flatMap encode = p.bytes := by
      intro p hp
      cases p with
      | byte c => exact absurd (List.all_eq_true.mp hv _ hp) (by simp [Piece.isChar])
      | char x =>
        have hm : ∀ b ∈ encode x, b ∈ raw := by
          intro b hb
          rw [← List.drop_zero (l := raw), ← hra]
          exact List.mem_flatMap.mpr ⟨_, hp, hb⟩
        have hne : x ≠ 0x07 ∧ x ≠ 0x09 := by
          constructor <;> rintro rfl
          · exact hbe (hm _ (by decide))
          · exact ht (hm _ (by decide))
        simp [Piece.reread, Piece.bytes, hne]
    rw [hr, List.flatMap_assoc, List.flatMap_def, List.map_congr_left hk, ← List.flatMap_def,
      hra, List.drop_zero]

namespace Yaml

mutual

@[simp] def quotes : Yaml → List Bytes
  | .null | .bool _ | .plain _ => []
  | .quoted text => [text]
  | .seq items => itemQuotes items
  | .map entries => entryQuotes entries

@[simp] def itemQuotes : List Yaml → List Bytes
  | [] => []
  | y :: rest => y.quotes ++ itemQuotes rest

@[simp] def entryQuotes : List YamlEntry → List Bytes
  | [] => []
  | .mk _ value :: rest => value.quotes ++ entryQuotes rest

end

def HasLine (text : Bytes) (lines : List Bytes) : Prop := ∃ start, start ++ text ∈ lines

namespace HasLine

variable {text : Bytes} {lines more : List Bytes}

lemma map (h : HasLine text lines) (start : Bytes) : HasLine text (lines.map (start ++ ·)) := by
  obtain ⟨s, hs⟩ := h
  exact ⟨start ++ s, by simpa using hs⟩

lemma left (h : HasLine text lines) : HasLine text (lines ++ more) :=
  h.imp fun _ => List.mem_append_left _

lemma right (h : HasLine text more) : HasLine text (lines ++ more) :=
  h.imp fun _ => List.mem_append_right _

end HasLine

variable {text : Bytes}

mutual

lemma hasLine_lines : (y : Yaml) → text ∈ y.quotes → HasLine (quotedText text) y.lines
  | .null, h | .bool _, h | .plain _, h => by simp [quotes] at h
  | .quoted _, h => ⟨[], by simp [quotes] at h; simp [lines, h]⟩
  | .seq [], h => by simp [quotes, itemQuotes] at h
  | .seq (y :: rest), h => by
    rw [quotes] at h
    exact hasLine_itemLines (y :: rest) h
  | .map entries, h => by
    rw [quotes] at h
    rw [lines]
    exact hasLine_entryLines entries h

lemma hasLine_itemLines :
    (items : List Yaml) → text ∈ itemQuotes items → HasLine (quotedText text) (itemLines items)
  | [], h => by simp [itemQuotes] at h
  | y :: rest, h => by
    rw [itemQuotes, List.mem_append] at h
    rw [itemLines]
    rcases h with h | h
    · obtain ⟨start, hs⟩ := hasLine_lines y h
      refine .left ?_
      split
      · next hl => simp [hl] at hs
      · next first more hl =>
        rw [hl, List.mem_cons] at hs
        rcases hs with rfl | hm
        · exact ⟨"- " ++ start, by simp⟩
        · exact ⟨"  " ++ start, by simp [hm]⟩
    · exact .right (hasLine_itemLines rest h)

lemma hasLine_entryLines :
    (entries : List YamlEntry) → text ∈ entryQuotes entries →
      HasLine (quotedText text) (entryLines entries)
  | [], h => by simp [entryQuotes] at h
  | .mk key value :: rest, h => by
    rw [entryQuotes, List.mem_append] at h
    unfold entryLines
    rcases h with h | h
    · refine .left ?_
      have hl := hasLine_lines value h
      split
      · rw [lines] at hl
        exact @HasLine.right _ [_] _ (hl.map _)
      · exact @HasLine.right _ [_] _ hl
      · exact hl.map _
    · exact .right (hasLine_entryLines rest h)

end

lemma HasLine.document {text : Bytes} {y : Yaml} (h : HasLine text y.lines) :
    ∃ before after, y.document = before ++ text ++ byte '\n' :: after := by
  obtain ⟨start, hst⟩ := h
  obtain ⟨ls, ls', hs⟩ := List.append_of_mem hst
  exact ⟨ls.flatMap (fun line => line ++ [byte '\n']) ++ start,
    ls'.flatMap fun line => line ++ [byte '\n'], by simp [Yaml.document, hs]⟩

end Yaml

@[simp] lemma Expr.itemQuotes_yamls (es : List Expr) :
    itemQuotes (Expr.yamls es) = es.flatMap fun e => e.yaml.quotes := by
  induction es with
  | nil => rfl
  | cons e rest ih => simp [Expr.yamls, ih]

@[simp] lemma Stmt.itemQuotes_yamls (body : List Stmt) :
    itemQuotes (Stmt.yamls body) = body.flatMap fun s => s.yaml.quotes := by
  induction body with
  | nil => rfl
  | cons s rest ih => simp [Stmt.yamls, ih]

@[simp] lemma Field.itemQuotes_yamls (fields : List Field) :
    itemQuotes (Field.yamls fields) = fields.flatMap fun f => f.yaml.quotes := by
  induction fields with
  | nil => rfl
  | cons f rest ih => simp [Field.yamls, ih]

@[simp] lemma quotes_yamlNode (type : String) (entries : List (String × Yaml)) :
    (yamlNode type entries).quotes = entries.flatMap fun p => p.2.quotes := by
  simp only [yamlNode, quotes, entryQuotes, List.nil_append]
  induction entries with
  | nil => rfl
  | cons p rest ih => simp [ih]

@[simp] lemma Ident.quotes_yaml (id : Ident) : id.yaml.quotes = [] := rfl

namespace SyntaxNode

/-- The texts in double quotes in what is written for a node. -/
@[simp] def quotes : SyntaxNode → List Bytes
  | .chunk t => t.body.flatMap fun s => s.yaml.quotes
  | .stmt s => s.yaml.quotes
  | .block _ body => body.flatMap fun s => s.yaml.quotes
  | .expr e => e.yaml.quotes
  | .field f => f.yaml.quotes

lemma mem_quotes_of_child {x c : SyntaxNode} (hc : c ∈ x.children) :
    ∀ text ∈ c.quotes, text ∈ x.quotes := by
  revert c
  cases x with
  | chunk t | block span body =>
    simp [children]
    grind
  | expr e =>
    cases e <;> simp [children, Expr.parts, Expr.yaml, or_imp, forall_and] <;> grind
  | stmt s =>
    cases s with
    | numericFor span name first limit step body =>
      cases step <;> simp [children, Stmt.parts, Stmt.yaml, Expr.yaml, or_imp, forall_and] <;> grind
    | cond span test body otherwise =>
      cases otherwise <;>
        simp [children, Stmt.parts, Otherwise.parts, Otherwise.yaml, Stmt.yaml, or_imp,
          forall_and] <;> grind
    | _ => simp [children, Stmt.parts, Stmt.yaml, Expr.yaml, or_imp, forall_and] <;> grind
  | field f =>
    obtain ⟨span, kind, key, value⟩ := f
    cases value <;>
      simp [children, Field.key, Field.value, Field.yaml, Expr.yaml, or_imp, forall_and] <;> grind

lemma Occurs.mem_quotes {x y : SyntaxNode} (h : Occurs x y) :
    ∀ text ∈ x.quotes, text ∈ y.quotes := by
  induction h with
  | self => exact fun _ => id
  | child hc _ ih => exact fun text ht => mem_quotes_of_child hc text (ih text ht)

def ownText? : SyntaxNode → Option Bytes
  | .expr (.string _ raw _) => some raw
  | .expr (.binary _ op ..) => some op.text
  | .expr (.unary _ op _) => some op.text
  | _ => none

lemma mem_quotes_of_ownText? {x : SyntaxNode} {text : Bytes} (h : x.ownText? = some text) :
    text ∈ x.quotes := by
  unfold ownText? at h
  split at h <;> cases h <;> simp [Expr.yaml]

end SyntaxNode

/-- For every literal and operator of a tree its text is written at the end of a line in double
quotes, and that scalar stands for the text if it is made of characters other than the bell and the
tab. -/
theorem SourceTree.yaml_text (tree : SourceTree) :
    (∀ x text, SyntaxNode.Occurs x (.chunk tree) → x.ownText? = some text →
      (∃ before after, tree.yaml = before ++ Yaml.quotedText text ++ byte '\n' :: after) ∧
      (Yaml.scalar? (Yaml.quotedText text) = some text ↔
        Utf8.isValid text = true ∧ 0x07 ∉ text ∧ 0x09 ∉ text)) ∧
    (∀ op : BinaryOp, Yaml.scalar? (Yaml.quotedText op.text) = some op.text) ∧
    ∀ op : UnaryOp, Yaml.scalar? (Yaml.quotedText op.text) = some op.text := by
  refine ⟨fun x text hx htext => ⟨?_, scalar?_quotedText_iff text⟩, fun op => ?_, fun op => ?_⟩
  · have hmem := hx.mem_quotes text (SyntaxNode.mem_quotes_of_ownText? htext)
    exact (Yaml.hasLine_lines _ (by simpa using hmem)).document
  · rw [scalar?_quotedText_iff]
    cases op <;> decide
  · rw [scalar?_quotedText_iff]
    cases op <;> decide

def tabText : Bytes := "a\tb"

def tabTree : SourceTree :=
  { span := ⟨.first, ⟨1, 18⟩⟩
    body := [.return ⟨.first, ⟨1, 18⟩⟩ [.string ⟨⟨1, 8⟩, ⟨1, 18⟩⟩ tabText false]] }

theorem SourceTree.yaml_text_tab :
    parse [] (.ofString "return \"" ++ tabText ++ [byte '"']) = .ok tabTree ∧
    tabTree.yaml =
      .ofString "type: Chunk\nbody:\n- type: ReturnStmt\n  body:\n  - type: String\n    value: " ++
      Yaml.quotedText tabText ++ [byte '\n'] ∧
    Yaml.scalar? (Yaml.quotedText tabText) = some (.ofString "a\\tb") ∧
      tabText ≠ .ofString "a\\tb" :=
  ⟨rfl, by decide +kernel, by decide +kernel, by decide⟩

end LuaBytecode
