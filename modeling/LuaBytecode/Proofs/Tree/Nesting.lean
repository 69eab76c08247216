import LuaBytecode.Proofs.Grammar.Derived
import LuaBytecode.Proofs.Token.Position

namespace LuaBytecode

open SyntaxNode TokenStream

variable {t : Token} {tree : SourceTree} {src : Bytes} {c : Cursor} {k : Nat}

lemma Cursor.Scans.reads {c₀ : Cursor} {es : List Scanned} (h : c.Scans es) (hc : Reads c₀ c)
    (ht : .token t ∈ es) : ∃ c', Reads c₀ c' ∧ c'.next.1 = .token t := by
  induction h with
  | last hn _ =>
    cases List.mem_singleton.mp ht
    exact ⟨_, hc, hn⟩
  | @cons c es _ _ ih =>
    rcases List.mem_cons.mp ht with ht | ht
    · exact ⟨c, hc, ht.symm⟩
    · exact ih (hc.trans c.reads_next) ht

lemma Cursor.next_eof (h : c.next.1 = .token t) (hk : t.kind = .eof) :
    c.skipSpaces.rest = [] ∧ t.span = .at c.skipSpaces.pos := by
  simp only [next, element] at h
  split at h
  · next hre =>
    cases h
    exact ⟨hre, rfl⟩
  · split at h <;> cases h
    next hr => exact absurd hk (Lexeme.read_ne_eof hr)

lemma TokenStream.span_of_eof (ht : t ∈ (ofSource src).tokens) (hk : t.kind = .eof) :
    t.span = .at (Position.first.advance src) := by
  obtain ⟨ts, last, hto, hr, hl⟩ := ofSource_ready src
  obtain ⟨ts', last', ht', -, hts⟩ := hr.ended
  obtain ⟨rfl, heq⟩ := List.append_inj' (hto.symm.trans ht') rfl
  cases heq
  rw [hto] at ht
  rcases List.mem_append.mp ht with ht | ht
  · exact absurd hk (hts t ht)
  · cases List.mem_singleton.mp ht
    have hm : Scanned.token t ∈ elements src := by
      refine (List.mem_filter (p := fun s => !s.isComment)).mp ?_ |>.1
      rw [hl.resolve_left (by simp [hk])]
      simp
    obtain ⟨c, hc, hn⟩ := (Cursor.scans_elements src).reads .refl hm
    obtain ⟨hre, hs⟩ := Cursor.next_eof hn hk
    rw [hs, Cursor.Reads.eq_skip (hc.trans c.reads_skipSpaces), hre]
    simp [Cursor.skip, Cursor.ofSource]

lemma parse_sound {source : Bytes} (h : parse source src = .ok tree) (hk : src.length + 2 < k) :
    tree.span = ⟨.first, Position.first.advance src⟩ ∧ (chunk tree).Everywhere (Sound k) := by
  obtain ⟨ts, ht, ho, hle, -⟩ := ofSource_inOrder src
  subst ht
  have hp : (ofSource src).prevEnd ≤ .first := by
    unfold ofSource
    split <;> exact .inl Int.zero_lt_one
  have hin : (ofSource src).InOrder := ho.of_le hp
  obtain ⟨-, -, -, hready, -⟩ := ofSource_ready src
  simp only [parse, StateT.run] at h
  split at h
  · next tree' s' hr =>
    cases h
    have hl : (ofSource src).rest.length + 2 < k := Nat.lt_of_le_of_lt (Nat.succ_le_succ hle) hk
    obtain ⟨ts, htokens, hleft, -, eof, hend, heo, hs⟩ :=
      (Parser.since_wholeBlock hl maxDepth).ok hready hr
    have hg := hleft.grows hin
    have hmem : eof ∈ (ofSource src).tokens := by simp [hend]
    have he := span_of_eof hmem heo
    -- The stream stops at its last token, the end of the text.
    have hcurrent : s'.tokens = [eof] := List.append_cancel_left (htokens.symm.trans hend)
    have hhere : s'.here = Position.first.advance src := by
      rw [here, (List.cons.inj hcurrent).1, he]
      rfl
    rw [he] at hs
    refine ⟨hs, everywhere_of ⟨⟨?_, fun c hc => ?_⟩, trivial⟩ fun c hc => (hg.nodes c hc).1⟩
    · show tree.span.start ≤ tree.span.stop
      rw [hs]
      exact Position.le_advance _ _
    · obtain ⟨-, hst, hstop⟩ := hg.nodes c hc
      show tree.span.start ≤ _ ∧ _ ≤ tree.span.stop
      rw [hs]
      exact ⟨ho.head.1.trans hst, hstop.trans (hg.inOrder.prevEnd_le.trans hhere.le)⟩
  · cases h

theorem parse_spans_nest {source src : Bytes} {tree : SourceTree}
    (h : parse source src = .ok tree) : tree.span = ⟨.first, Position.first.advance src⟩ ∧
      (SyntaxNode.chunk tree).Everywhere SyntaxNode.Nested := by
  obtain ⟨hroot, hsound⟩ := parse_sound h (Nat.lt_succ_self _)
  exact ⟨hroot, fun x hx => (hsound x hx).toNested⟩

def spanText : Bytes := "local a, b = {c.d} function a:f() return end -- e"

theorem parse_spans_nest_comment : ∃ tree, parse [] spanText = .ok tree ∧
    tree.span = ⟨.first, ⟨1, 50⟩⟩ ∧ (SyntaxNode.chunk tree).Everywhere SyntaxNode.Nested := by
  have hok : (parse [] spanText).toOption.isSome = true := by decide +kernel
  have hend : Position.first.advance spanText = ⟨1, 50⟩ := by decide +kernel
  cases h : parse [] spanText with
  | error e =>
    rw [h] at hok
    cases hok
  | ok tree =>
    obtain ⟨hroot, hnested⟩ := parse_spans_nest h
    exact ⟨tree, rfl, by rw [hroot, hend], hnested⟩

end LuaBytecode
