import LuaBytecode.Proofs.Chunk.Recovered

namespace LuaBytecode

namespace Chunk

variable {data : Bytes}

def IsMalformed (data : Bytes) : Prop := ∃ e, Chunk.undump data = .error e ∧
    "load lua chunk: bad binary format: " <+: e.message

lemma isMalformed_of_error {e : UndumpError} (h : Chunk.undump data = .error e) :
    IsMalformed data :=
  ⟨e, h, e.detail, rfl⟩

lemma isMalformed_of_ne_ok (h : ∀ c, ¬Chunk.undump data = .ok c) :
    IsMalformed data := by
  cases hu : Chunk.undump data with
  | error e => exact isMalformed_of_error hu
  | ok c => exact absurd hu (h c)

lemma undump_append {c : Chunk} (h : Chunk.undump data = .ok c) {extra : Bytes}
    (he : extra ≠ []) : Chunk.undump (data ++ extra) = .error .trailingData := by
  obtain ⟨l, n, rest, main, hp, hm, -, -⟩ := undump_eq_ok.mp h
  obtain ⟨_, rfl, rfl⟩ := Layout.takes_preamble hp
  obtain ⟨body, hbody, hfit, hw⟩ := l.takes_function _ [] l.sizeT.nil_lt hm
  rw [List.append_nil] at hbody
  subst hbody
  -- What was read fits, so that its bytes are read again whatever follows them.
  have hdepth : rest.length ≤ (rest ++ extra).length + 1 := by
    rw [List.length_append]
    omega
  obtain ⟨g, hg, -⟩ := l.reads_function main (q := []) (.inl rfl) hfit hw hdepth
  have hl : extra.isEmpty = false := by simpa using he
  simp only [undump, List.append_assoc, l.reads_preamble n _, hg extra, hl, Except.mapError, bind,
    Except.bind, Bool.not_false, if_true]
  rfl

/-- A chunk is told from its bytes alone: cut short or followed by anything, they are refused. -/
theorem undump_delimited {data : Bytes} {c : Chunk} (h : Chunk.undump data = .ok c) :
    (∀ start, start <+: data → start ≠ data → IsMalformed start) ∧ ∀ extra, extra ≠ [] →
        IsMalformed (data ++ extra) ∧ Chunk.undump (data ++ extra) = .error .trailingData := by
  constructor
  · rintro start ⟨tail, rfl⟩ hne
    -- A start that is accepted leaves the tail over.
    apply isMalformed_of_ne_ok
    intro c' hstart
    have htail : tail ≠ [] := by
      rintro rfl
      exact hne (List.append_nil start).symm
    rw [undump_append hstart htail] at h
    cases h
  · intro extra hextra
    have herror := undump_append h hextra
    exact ⟨isMalformed_of_error herror, herror⟩

theorem undump_delimited_nameless : (∃ c, Chunk.undump namelessBytes = .ok c) ∧
    (∀ start, start <+: namelessBytes → start ≠ namelessBytes → IsMalformed start) ∧
      ∀ extra, extra ≠ [] → IsMalformed (namelessBytes ++ extra) ∧
        Chunk.undump (namelessBytes ++ extra) = .error .trailingData := by
  have hok : (Chunk.undump namelessBytes).toOption.isSome = true := by decide +kernel
  cases h : Chunk.undump namelessBytes with
  | error e => simp [h, Except.toOption] at hok
  | ok c => exact ⟨⟨c, rfl⟩, undump_delimited h⟩

end Chunk

end LuaBytecode
