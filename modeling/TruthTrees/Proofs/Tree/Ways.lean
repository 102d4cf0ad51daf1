import TruthTrees.Proofs.Formula.Folds
import TruthTrees.Proofs.Tree.ClosedTrees

/-! Ways down a tree, and what the check for a checkmark finds on them. The check goes down all
branches at once, stops at closed nodes and wherever enough was found, and hands on what was found
above. On a single way to a leaf that meets no closed node this comes to one fact: somewhere on the
way the lines that rest on the checked line say what it says. -/
namespace TruthTrees.Tree

/-- A way down the tree: from a node to another one, each node followed by one of its children. -/
inductive Way (t : Tree) : Nat → Nat → List Nat → Prop
  | here (n : Nat) : Way t n n [n]
  | down {m c n : Nat} {path : List Nat} (hc : c ∈ (t.node m).children) (h : Way t c n path) :
    Way t m n (m :: path)

def OpenWay (t : Tree) (m : Nat) (path : List Nat) : Prop :=
  ∃ n, t.Way m n path ∧ (t.node n).children = [] ∧ ∀ k ∈ path, (t.node k).closed = false

/-- Some lines that rest on a line and are held by certain nodes say, all together, what the line
says. -/
def AddUpOn (t : Tree) (i : Nat) (path : List Nat) : Prop :=
  ∃ cs : List Nat, cs ≠ [] ∧ (∀ c ∈ cs, c ∈ (t.line i).children ∧ (t.line c).node ∈ path) ∧
    ∃ φ, Formula.conjunction? (cs.map (fun c => (t.line c).formula)) = some φ ∧
      φ.SameTruth (t.line i).formula

/-- Both children of a node hold lines that rest on a line, these stand on branches grown from the
line, and they are, between them, its cases. -/
structure CasesBelow (t : Tree) (i n left right : Nat) : Prop where
  children : (t.node n).children = [left, right]
  left_held : ∃ c ∈ (t.line i).children, (t.line c).node = left
  right_held : ∃ c ∈ (t.line i).children, (t.line c).node = right
  grown : ∀ c ∈ (t.line i).children, (t.line c).node = left ∨ (t.line c).node = right →
    (t.node (t.line c).node).branchedOn? = some i
  cases : ∃ φ ψ, Formula.conjunction? (t.childFormulas i [left]) = some φ ∧
    Formula.conjunction? (t.childFormulas i [right]) = some ψ ∧
    (Formula.or φ ψ).SameTruth (t.line i).formula

/-- One of certain nodes is a branch that, together with its neighbour, holds the cases of a
line. -/
def SplitUpOn (t : Tree) (i : Nat) (path : List Nat) : Prop :=
  ∃ n left right, t.CasesBelow i n left right ∧ (left ∈ path ∨ right ∈ path)

/-- What is certified of a line that may be checkmarked, on every open way down from its node: lines
that rest on it add up to it if both its parts hold, and are its cases if one of its parts holds.
For a biconditional it is one or the other, on all ways alike. -/
structure Certified (t : Tree) (i : Nat) : Prop where
  both : (t.line i).formula.decompose.junction? = some .and →
    ∀ path, t.OpenWay (t.line i).node path → t.AddUpOn i path
  either : (t.line i).formula.decompose.junction? = some .or →
    ∀ path, t.OpenWay (t.line i).node path → t.SplitUpOn i path
  cases : (t.line i).formula.decompose.junction? = some .iff →
    (∀ path, t.OpenWay (t.line i).node path → t.SplitUpOn i path) ∨
      ∀ path, t.OpenWay (t.line i).node path → t.AddUpOn i path

variable {t : Tree} {i m n c : Nat} {path : List Nat}

theorem Way.head_mem (h : t.Way m n path) : m ∈ path := by
  cases h with
  | here => exact List.mem_cons_self
  | down => exact List.mem_cons_self

/-- A way can be prolonged by a child of the node where it ends. -/
theorem Way.concat (h : t.Way m n path) (hc : c ∈ (t.node n).children) :
    t.Way m c (path ++ [c]) := by
  induction h with
  | here n => exact .down hc (.here c)
  | down hd _ ih => exact .down hd (ih hc)

/-- The path to a live node is a way that starts at the root. -/
theorem Rooted.way_path (h : Rooted t.nodes) (hn : t.nodes.isLive n = true) :
    t.Way root n (t.path n) := by
  -- The induction is on the node: a node grows from an older one.
  induction n using Nat.strongRecOn with
  | ind n ih =>
    unfold path
    by_cases hroot : n = root
    · rw [ancestors_of_root (by rw [hroot]; exact h.root_stem), hroot]
      exact .here root
    · obtain ⟨s, hs, hlt⟩ := h.stem n (Register.lt_size_of_isLive hn) hroot
      rw [ancestors_of_stem hs hlt, List.reverse_cons]
      exact (ih s.node hlt (h.parent_live n s hn hs)).concat (h.mem_children hn hs)

/-- A node that has a child is a fork. -/
theorem Rooted.fork_of_mem_children (h : Rooted t.nodes) (hf : Forked t.nodes)
    (hc : c ∈ (t.node m).children) :
    ∃ left right k, Fork t.nodes m left right k ∧ (c = left ∨ c = right) := by
  obtain ⟨hclive, hparent⟩ := h.mem_children_iff.mp hc
  obtain ⟨s, hs, rfl⟩ := Option.map_eq_some_iff.mp hparent
  rcases hf s.node (h.parent_live c s hclive hs) with hleaf | ⟨left, right, k, hfork⟩
  · rw [show (t.node s.node).children = [] from hleaf] at hc
    simp at hc
  · rw [show (t.node s.node).children = [left, right] from hfork.children] at hc
    exact ⟨left, right, k, hfork, List.mem_pair.mp hc⟩

def childrenIn (t : Tree) (i n : Nat) : List Nat :=
  (t.line i).children.filter (fun c => [n].contains (t.line c).node)

theorem mem_childrenIn :
    c ∈ t.childrenIn i n ↔ c ∈ (t.line i).children ∧ (t.line c).node = n := by
  simp [childrenIn]

/-- The children of a line in a node say what the rules read there. -/
theorem map_childrenIn (t : Tree) (i n : Nat) :
    (t.childrenIn i n).map (fun c => (t.line c).formula) = t.childFormulas i [n] := rfl

theorem addUpOn_of_addsUp {cs : List Nat}
    (hcs : ∀ c ∈ cs, c ∈ (t.line i).children ∧ (t.line c).node ∈ path)
    (h : t.addsUp i (cs.map (fun c => (t.line c).formula)) = true) : t.AddUpOn i path := by
  obtain ⟨φ, hφ, hequivalent⟩ := List.any_eq_true.mp h
  obtain ⟨first, rest, hsplit, hconj⟩ := Formula.mem_conjunctions.mp hφ
  obtain ⟨ds, es, rfl, rfl, -⟩ := List.map_eq_append_iff.mp hsplit
  refine ⟨ds, ?_, fun c hc => hcs c (List.mem_append_left _ hc), φ, hconj,
    Formula.comparisons_sound.1 _ _ hequivalent⟩
  rintro rfl
  simp [Formula.conjunction?] at hconj

/-- A node on the way adds the lines that it holds to what was found above. -/
theorem on_way_of_mem_append {cs all : List Nat}
    (hcs : ∀ c ∈ cs, c ∈ (t.line i).children ∧ (t.line c).node ∈ all) (hm : m ∈ all) :
    ∀ c ∈ cs ++ t.childrenIn i m, c ∈ (t.line i).children ∧ (t.line c).node ∈ all := by
  intro c hc
  rcases List.mem_append.mp hc with hc | hc
  · exact hcs c hc
  · obtain ⟨hchild, hnode⟩ := mem_childrenIn.mp hc
    exact ⟨hchild, hnode ▸ hm⟩

/-- Where lines in two nodes are the cases of a line, and stand on branches grown from it, the rule
for branches is met. -/
theorem casesBelow_of_splitsUp {left right : Nat} (hchildren : (t.node n).children = [left, right])
    (howns : t.ownsBranches i left right = true) (hsplits : t.splitsUp i left right = true) :
    t.CasesBelow i n left right := by
  have hheld : ∀ {k : Nat} {φ : Formula}, Formula.conjunction? (t.childFormulas i [k]) = some φ →
      ∃ c ∈ (t.line i).children, (t.line c).node = k := by
    intro k φ hφ
    have hne : t.childrenIn i k ≠ [] := by
      intro hnil
      rw [← map_childrenIn, hnil] at hφ
      simp [Formula.conjunction?] at hφ
    obtain ⟨c, hc⟩ := List.exists_mem_of_ne_nil _ hne
    exact ⟨c, mem_childrenIn.mp hc⟩
  unfold splitsUp at hsplits
  split at hsplits
  · next φ ψ hφ hψ =>
    refine ⟨hchildren, hheld hφ, hheld hψ, ?_, φ, ψ, hφ, hψ,
      Formula.comparisons_sound.1 _ _ hsplits⟩
    intro c hc hside
    have hown := List.all_eq_true.mp howns c hc
    rcases hside with hl | hr
    · simpa [hl] using hown
    · simpa [hr] using hown
  · simp at hsplits

section Walks

variable (h : Rooted t.nodes) (hf : Forked t.nodes) (hway : t.Way m n path)
  (hleaf : (t.node n).children = []) (hopen : ∀ k ∈ path, (t.node k).closed = false)

include h hf hway hleaf hopen

/-- On every open way the lines that rest on a line add up to it. What was found above stands on a
longer way, of which this one is the end. -/
theorem addUpOn_of_addsUpBelow {cs all : List Nat} (hall : ∀ k ∈ path, k ∈ all)
    (hcs : ∀ c ∈ cs, c ∈ (t.line i).children ∧ (t.line c).node ∈ all)
    (hadds : t.addsUpBelow i (t.shape m) (cs.map (fun c => (t.line c).formula)) = true) :
    t.AddUpOn i all := by
  -- Down the way what was found grows, so it is not fixed in the induction; the longer way is.
  induction hway generalizing cs with
  | here n =>
    have hfound := on_way_of_mem_append hcs (hall n List.mem_cons_self)
    rw [shape_of_leaf hleaf, addsUpBelow, hopen n List.mem_cons_self, Bool.false_or,
      ← map_childrenIn, ← List.map_append] at hadds
    exact addUpOn_of_addsUp hfound hadds
  | @down m c n path hc _ ih =>
    rw [List.forall_mem_cons] at hall hopen
    have hfound := on_way_of_mem_append hcs hall.1
    obtain ⟨left, right, k, hfork, hside⟩ := h.fork_of_mem_children hf hc
    rw [h.shape_of_fork hfork, addsUpBelow, hopen.1, Bool.false_or, ← map_childrenIn,
      ← List.map_append, Bool.or_eq_true, Bool.and_eq_true] at hadds
    rcases hadds with hhere | ⟨hleft, hright⟩
    · exact addUpOn_of_addsUp hfound hhere
    · apply ih hleaf hopen.2 hall.2 hfound
      rcases hside with rfl | rfl
      · exact hleft
      · exact hright

/-- Every open way goes into one of two branches that hold the cases of a line. -/
theorem splitUpOn_of_splitsUpBelow (hsplits : t.splitsUpBelow i (t.shape m) = true) :
    t.SplitUpOn i path := by
  induction hway with
  | here n =>
    rw [shape_of_leaf hleaf, splitsUpBelow, hopen n List.mem_cons_self] at hsplits
    simp at hsplits
  | @down m c n path hc hrest ih =>
    rw [List.forall_mem_cons] at hopen
    obtain ⟨left, right, k, hfork, hside⟩ := h.fork_of_mem_children hf hc
    rw [h.shape_of_fork hfork, splitsUpBelow, hopen.1, Bool.false_or, Bool.and_eq_true,
      Bool.or_eq_true, Bool.and_eq_true, node_shape, node_shape] at hsplits
    obtain ⟨howns, hhere | ⟨hleft, hright⟩⟩ := hsplits
    · have hmem := List.mem_cons_of_mem m hrest.head_mem
      refine ⟨m, left, right, casesBelow_of_splitsUp hfork.children howns hhere, ?_⟩
      rcases hside with rfl | rfl
      · exact Or.inl hmem
      · exact Or.inr hmem
    · have hbelow : t.splitsUpBelow i (t.shape c) = true := by
        rcases hside with rfl | rfl
        · exact hleft
        · exact hright
      obtain ⟨n', left', right', hcases, hon⟩ := ih hleaf hopen.2 hbelow
      exact ⟨n', left', right', hcases,
        hon.imp (List.mem_cons_of_mem m) (List.mem_cons_of_mem m)⟩

end Walks

/-- A line that was taken apart on all branches below it is certified. -/
theorem Rooted.certified (h : Rooted t.nodes) (hf : Forked t.nodes)
    (hd : t.isDecomposed i = true) : t.Certified i := by
  have hadds (hadds : t.addsUpBelow i (t.shape (t.line i).node) [] = true) (path : List Nat) :
      t.OpenWay (t.line i).node path → t.AddUpOn i path := by
    rintro ⟨n, hway, hleaf, hopen⟩
    have hnone : ∀ c ∈ ([] : List Nat), c ∈ (t.line i).children ∧ (t.line c).node ∈ path := by simp
    exact addUpOn_of_addsUpBelow h hf hway hleaf hopen (fun _ hk => hk) hnone hadds
  have hsplits (hsplits : t.splitsUpBelow i (t.shape (t.line i).node) = true) (path : List Nat) :
      t.OpenWay (t.line i).node path → t.SplitUpOn i path := by
    rintro ⟨n, hway, hleaf, hopen⟩
    exact splitUpOn_of_splitsUpBelow h hf hway hleaf hopen hsplits
  unfold isDecomposed at hd
  constructor
  all_goals
    intro hjunction
    rw [hjunction] at hd
  · exact hadds hd
  · exact hsplits hd
  · exact (Bool.or_eq_true_iff.mp hd).imp hsplits hadds

end TruthTrees.Tree
