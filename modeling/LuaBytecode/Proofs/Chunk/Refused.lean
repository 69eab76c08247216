import LuaBytecode.Proofs.Chunk.Reloaded

namespace LuaBytecode

open Prototype

namespace Chunk

lemma undump_cases {c : Chunk} {data : Bytes} {main : Prototype} (h : c.dump = .ok data)
    (hm : c.main = some main) (ht : main.AllTextsBelow c.header.textLimit) :
    (∃ c', Chunk.undump data = .ok c' ∧ ∀ n, ¬main.HasTooMany n) ∨ ∃ n, main.HasTooMany n ∧
      Chunk.undump data = .error (.function .whole (.tooManyUpvalues n)) := by
  by_cases hno : ∀ n, ¬main.HasTooMany n
  · obtain ⟨main', hu, -⟩ := exists_reloaded h hm (fits_of_texts ht hno)
    exact .inl ⟨_, hu, hno⟩
  obtain ⟨l, _, body, hl, hm', -, hc, hb, rfl⟩ := dump_eq_ok.mp h
  cases hm.symm.trans hm'
  rw [← Header.header_layout hl, l.textLimit_header] at ht
  rcases l.readsBack main (q := []) (.inl rfl) ht hb (Nat.le_succ body.length) with
    ⟨-, -, -, hok⟩ | ⟨n, hn, hr⟩
  · exact absurd hok hno
  · have hbody := hr []
    rw [List.append_nil] at hbody
    refine .inr ⟨n, hn, ?_⟩
    simp only [undump, l.reads_preamble c.upvalueCount body, hbody, Except.map, Except.mapError,
      bind, Except.bind]

/-- A written chunk is loaded exactly if no function in it has too many upvalues, and this is what
is wrong with every other one. -/
theorem undump_of_dump {c : Chunk} {data : Bytes} (h : c.dump = .ok data)
    (htexts : ∀ main ∈ c.main, main.AllTextsBelow c.header.textLimit) :
    ((∃ c', Chunk.undump data = .ok c') ↔ ∀ main ∈ c.main, ∀ n, ¬main.HasTooMany n) ∧
      ∀ e, Chunk.undump data = .error e → ∃ main ∈ c.main, ∃ n, main.HasTooMany n ∧
        e = .function .whole (.tooManyUpvalues n) := by
  obtain ⟨l, main, body, -, hmain, -⟩ := dump_eq_ok.mp h
  have hcases : ∀ main0 ∈ c.main, main0 = main := by
    rw [hmain]
    exact fun _ h => (Option.some.inj h).symm
  rcases undump_cases h hmain (htexts main hmain) with ⟨c', hundump, hnone⟩ | ⟨n, hn, hundump⟩
  · refine ⟨⟨fun _ main0 hmain0 => hcases main0 hmain0 ▸ hnone, fun _ => ⟨c', hundump⟩⟩, ?_⟩
    intro e he
    cases hundump.symm.trans he
  · refine ⟨⟨?_, fun hnone => absurd hn (hnone main hmain n)⟩, ?_⟩
    · rintro ⟨c', hc'⟩
      cases hundump.symm.trans hc'
    · intro e he
      cases hundump.symm.trans he
      exact ⟨main, hmain, n, hn, rfl⟩

end Chunk

def upvaluesPrototype (count : Nat) (functions : List Prototype) : Prototype where
  numParams := 0
  isVararg := false
  maxStackSize := 2
  code := [⟨0x00800026⟩]
  constants := []
  upvalues := .replicate count ⟨[], false, 0⟩
  functions
  source := []
  lineDefined := 0
  lastLineDefined := 0
  lineInfo := []
  localVariables := []

def upvaluesChunk (count : Nat) : Chunk where
  header := ⟨0x53, 0, 4, 8, 4, 8, 8, some .little⟩
  upvalueCount := 0
  main := some (upvaluesPrototype 0 [upvaluesPrototype count []])

lemma upvaluesChunk_texts (count : Nat) : ∀ main ∈ (upvaluesChunk count).main,
    main.AllTextsBelow (upvaluesChunk count).header.textLimit := by
  have ht : ∀ n fs, ∀ s ∈ (upvaluesPrototype n fs).texts, s.length < 0xffffffffffffffff := by
    intro n fs s hs
    have hs' : s = [] := by
      simp only [texts, upvaluesPrototype, List.filterMap_nil, List.map_nil,
        List.map_replicate, List.nil_append, List.mem_cons, List.mem_replicate] at hs
      exact hs.elim id And.right
    simp [hs']
  rintro main ⟨⟩
  refine forall_nested.mpr ⟨ht 0 _, fun g hg => ?_⟩
  rw [List.mem_singleton.mp hg]
  exact forall_nested.mpr ⟨ht count [], fun g hg => absurd hg List.not_mem_nil⟩

/-- A nested function with as many upvalues as it can have. -/
theorem Chunk.undump_of_dump_upvalues : ∃ data, (upvaluesChunk 255).dump = .ok data ∧
    ((∃ c', Chunk.undump data = .ok c') ↔
      ∀ main ∈ (upvaluesChunk 255).main, ∀ n, ¬main.HasTooMany n) ∧
    ∀ e, Chunk.undump data = .error e → ∃ main ∈ (upvaluesChunk 255).main, ∃ n,
      main.HasTooMany n ∧ e = .function .whole (.tooManyUpvalues n) := by
  have hdump : (upvaluesChunk 255).dump.toOption.isSome = true := by decide +kernel
  cases h : (upvaluesChunk 255).dump with
  | error e => simp [h, Except.toOption] at hdump
  | ok data => exact ⟨data, rfl, undump_of_dump h (upvaluesChunk_texts 255)⟩

lemma hasTooMany_upvaluesPrototype {count : Nat} (h : maxUpvalues < count) (n : Nat) :
    (upvaluesPrototype 0 [upvaluesPrototype count []]).HasTooMany n ↔ count = n := by
  rw [hasTooMany_iff]
  simp only [upvaluesPrototype, List.mem_singleton, exists_eq_left]
  rw [hasTooMany_iff]
  simp [h]

/-- One upvalue too many in a nested function: the chunk is written and not loaded. -/
theorem Chunk.undump_fails_after_dump : ∃ data, (upvaluesChunk 256).dump = .ok data ∧
    Chunk.undump data = .error (.function .whole (.tooManyUpvalues 256)) := by
  have hdump : (upvaluesChunk 256).dump.toOption.isSome = true := by decide +kernel
  cases h : (upvaluesChunk 256).dump with
  | error e => simp [h, Except.toOption] at hdump
  | ok data =>
    have hcount := hasTooMany_upvaluesPrototype (show maxUpvalues < 256 by decide)
    rcases undump_cases h rfl (upvaluesChunk_texts 256 _ rfl) with ⟨-, -, hno⟩ | ⟨n, hn, hundump⟩
    · exact absurd ((hcount 256).mpr rfl) (hno 256)
    · rw [← (hcount n).mp hn] at hundump
      exact ⟨data, rfl, hundump⟩

end LuaBytecode
