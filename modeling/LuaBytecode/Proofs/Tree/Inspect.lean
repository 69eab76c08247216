import LuaBytecode.Proofs.Tree.Children

namespace LuaBytecode

namespace Node

variable {α β : Type} {descend : α → Bool} {x : α} {children : List (Node α)}

lemma induction {P : Node α → Prop} (h : ∀ x children, (∀ n ∈ children, P n) → P (.mk x children)) :
    (n : Node α) → P n
  | .mk x children => h x children fun n _ => induction h n
decreasing_by
  have := List.sizeOf_lt_of_mem ‹_›
  simp only [mk.sizeOf_spec]
  omega

lemma inspectAllFrom_eq (h : ∀ n ∈ children, ∀ done,
      n.inspectFrom descend done = (n.inspect descend).reverse ++ done) (done : List (Option α)) :
    inspectAllFrom descend done children =
      (children.flatMap (·.inspect descend)).reverse ++ done := by
  induction children generalizing done with
  | nil => rfl
  | cons n rest ih =>
    obtain ⟨hn, hr⟩ := List.forall_mem_cons.mp h
    rw [inspectAllFrom, ih hr, hn, List.flatMap_cons, List.reverse_append, List.append_assoc]

lemma inspectFrom_eq (n : Node α) (done : List (Option α)) :
    n.inspectFrom descend done = (n.inspect descend).reverse ++ done := by
  induction n using induction generalizing done with
  | h x children ih =>
    rw [inspect, inspectFrom, inspectFrom, List.reverse_reverse]
    split
    · rw [inspectAllFrom_eq ih, inspectAllFrom_eq ih]
      simp
    · rfl

lemma inspect_mk : (mk x children).inspect descend =
    some x :: if descend x then children.flatMap (·.inspect descend) ++ [none] else [] := by
  rw [inspect, inspectFrom]
  split
  · rw [inspectAllFrom_eq fun n _ => n.inspectFrom_eq]
    simp
  · rfl

/-- Leaves out what is inside of nodes that are not to be gone below, and where they are left. -/
def pruned (descend : α → Bool) : (inside : Nat) → List (Option α) → List (Option α)
  | _, [] => []
  | 0, some x :: rest => some x :: pruned descend (if descend x then 0 else 1) rest
  | 0, none :: rest => none :: pruned descend 0 rest
  | n + 1, some _ :: rest => pruned descend (n + 2) rest
  | n + 1, none :: rest => pruned descend n rest

lemma pruned_inside_all {k : Nat} (h : ∀ n ∈ children, ∀ rest,
      pruned descend k (n.inspect (fun _ => true) ++ rest) = pruned descend k rest)
    (rest : List (Option α)) :
    pruned descend k (children.flatMap (·.inspect fun _ => true) ++ rest) =
      pruned descend k rest := by
  induction children with
  | nil => rfl
  | cons n children ih =>
    obtain ⟨hn, hr⟩ := List.forall_mem_cons.mp h
    rw [List.flatMap_cons, List.append_assoc, hn, ih hr]

lemma pruned_inside (n : Node α) (k : Nat) (rest : List (Option α)) :
    pruned descend (k + 1) (n.inspect (fun _ => true) ++ rest) = pruned descend (k + 1) rest := by
  induction n using induction generalizing k rest with
  | h x children ih =>
    rw [inspect_mk, if_pos rfl, List.cons_append, pruned, List.append_assoc,
      pruned_inside_all fun n hn => ih n hn (k + 1)]
    rfl

lemma pruned_inspect (n : Node α) (rest : List (Option α)) :
    pruned descend 0 (n.inspect (fun _ => true) ++ rest) =
      n.inspect descend ++ pruned descend 0 rest := by
  induction n using induction generalizing rest with
  | h x children ih =>
    have ha : ∀ rest, pruned descend 0 (children.flatMap (·.inspect fun _ => true) ++ rest) =
        children.flatMap (·.inspect descend) ++ pruned descend 0 rest := by
      intro rest
      induction children with
      | nil => rfl
      | cons n children ihs =>
        obtain ⟨hn, hr⟩ := List.forall_mem_cons.mp ih
        rw [List.flatMap_cons, List.append_assoc, hn, ihs hr, List.flatMap_cons, List.append_assoc]
    rw [inspect_mk, if_pos rfl, List.cons_append, pruned, List.append_assoc, inspect_mk]
    cases descend x with
    | true =>
      rw [if_pos rfl, if_pos rfl, ha]
      simp [pruned]
    | false =>
      rw [if_neg Bool.false_ne_true, if_neg Bool.false_ne_true,
        pruned_inside_all fun n _ => n.pruned_inside 0]
      rfl

def map (f : α → β) : Node α → Node β
  | .mk x children => .mk (f x) (children.map (map f))

lemma inspect_map (f : α → β) (n : Node α) :
    (n.map f).inspect (fun _ => true) = (n.inspect fun _ => true).map (Option.map f) := by
  induction n using induction with
  | h x children ih =>
    have ha : (children.map (map f)).flatMap (·.inspect fun _ => true) =
        (children.flatMap (·.inspect fun _ => true)).map (Option.map f) := by
      rw [List.map_flatMap, List.flatMap_map, List.flatMap_def, List.flatMap_def,
        List.map_congr_left ih]
    rw [map, inspect_mk, inspect_mk, if_pos rfl, if_pos rfl, ha]
    simp

lemma eq_of_inspect_append {n m : Node α} {rest rest' : List (Option α)}
    (h : n.inspect (fun _ => true) ++ rest = m.inspect (fun _ => true) ++ rest') :
    n = m ∧ rest = rest' := by
  induction n using induction generalizing m rest rest' with
  | h x children ih =>
    have ha : ∀ children', children.flatMap (·.inspect fun _ => true) ++ none :: rest =
          children'.flatMap (·.inspect fun _ => true) ++ none :: rest' →
        children = children' ∧ rest = rest' := by
      clear h
      induction children with
      | nil =>
        rintro (_ | ⟨⟨y, below⟩, children'⟩) h
        · exact ⟨rfl, (List.cons.inj h).2⟩
        · rw [List.flatMap_cons, inspect_mk] at h
          exact nomatch (List.cons.inj h).1
      | cons n children ihs =>
        obtain ⟨hn, hre⟩ := List.forall_mem_cons.mp ih
        rintro (_ | ⟨m, children'⟩) h
        · obtain ⟨y, below⟩ := n
          rw [List.flatMap_cons, inspect_mk] at h
          exact nomatch (List.cons.inj h).1
        · rw [List.flatMap_cons, List.append_assoc, List.flatMap_cons, List.append_assoc] at h
          obtain ⟨rfl, ht⟩ := hn h
          obtain ⟨rfl, hr⟩ := ihs hre children' ht
          exact ⟨rfl, hr⟩
    obtain ⟨y, children'⟩ := m
    rw [inspect_mk, inspect_mk, if_pos rfl, if_pos rfl, List.cons_append, List.cons_append,
      List.append_assoc, List.append_assoc] at h
    obtain ⟨hx, h⟩ := List.cons.inj h
    obtain ⟨rfl, hr⟩ := ha _ h
    exact ⟨by rw [Option.some.inj hx], hr⟩

end Node

/-- A visit enters a node, then visits its children, the first one first, and leaves it, unless it
is not to go below it. So a visit that goes below every node goes once through all of the tree,
another one has the same events without those below the nodes that it does not go below and without
leaving these, and the events of a whole visit determine the tree, whatever of the nodes is looked
at: their kind, or nothing, which leaves the shape. -/
theorem SyntaxNode.inspect_preorder :
    (∀ x : SyntaxNode, x.node = .mk x (x.children.map SyntaxNode.node)) ∧
    (∀ (descend : SyntaxNode → Bool) (x : SyntaxNode), x.node.inspect descend =
      some x :: if descend x then x.children.flatMap (·.node.inspect descend) ++ [none] else []) ∧
    (∀ (descend : SyntaxNode → Bool) (x : SyntaxNode),
      x.node.inspect descend = Node.pruned descend 0 (x.node.inspect fun _ => true)) ∧
    ∀ {β : Type} (f : SyntaxNode → β) (x y : SyntaxNode),
      (x.node.inspect fun _ => true).map (Option.map f) =
        (y.node.inspect fun _ => true).map (Option.map f) → x.node.map f = y.node.map f := by
  refine ⟨node_eq, fun descend x => ?_, fun descend x => ?_, fun f x y h => ?_⟩
  · rw [node_eq, Node.inspect_mk, List.flatMap_map]
  · have := @Node.pruned_inspect _ descend x.node []
    rw [List.append_nil] at this
    rw [this]
    simp [Node.pruned]
  · rw [← Node.inspect_map, ← Node.inspect_map] at h
    exact (Node.eq_of_inspect_append (by rw [h, List.append_nil])).1

end LuaBytecode
