import TruthTrees.Proofs.Tree.Chains

/-! The links between the live lines of a tree. All that the lines say about each other follows from
what each of them rests on and from which of them are checkmarked: so a tree with sound links is
determined by these. -/
namespace TruthTrees.Tree

/-- Live lines rest on live lines, which list them in display order, and not in a circle. -/
structure Threaded (t : Tree) : Prop extends Acyclic t where
  children : ∀ i, t.lines.isLive i = true →
    (t.line i).children = t.lines.order.filter (fun c => t.support c == .line i)

structure Listed (t : Tree) : Prop extends Descending t, Threaded t where
  parent_live := (Descending.acyclic ⟨ordered, parent⟩).parent_live
  irrefl := (Descending.acyclic ⟨ordered, parent⟩).irrefl

/-- What the lines say about each other fits together, wherever they are displayed: a live line is
valid when its chain ends in a premise, and one that rests on another line knows whether that one is
checkmarked. -/
structure Tied (t : Tree) : Prop extends Threaded t where
  valid : ∀ i, t.lines.isLive i = true → ((t.line i).valid = true ↔ Grounded t.support i)
  mirrored : ∀ c p, t.lines.isLive c = true → t.support c = .line p →
    (t.line c).parentCheckmarked = (t.line p).checkmarked

/-- What the lines say about each other fits together: a live line is listed by the one it rests on,
is valid when its chain ends in a premise, and knows whether the line that it rests on is
checkmarked. -/
structure Linked (t : Tree) : Prop extends Listed t, Tied t where
  marked : ∀ i, t.lines.isLive i = true → (t.line i).parentCheckmarked =
    (t.support i).parent?.any (fun p => (t.line p).checkmarked)
  mirrored := fun c p hc hp => by
    rw [marked c hc, hp]
    rfl

namespace Threaded

variable {t : Tree} {i j p c : Nat}

/-- The children of a line are the lines that it justifies. -/
theorem mem_children_iff (h : Threaded t) (hp : t.lines.isLive p = true) :
    c ∈ (t.line p).children ↔ t.lines.isLive c = true ∧ t.support c = .line p := by
  rw [h.children p hp, List.mem_filter, h.ordered.mem_iff, beq_iff_eq]

/-- What is listed below a line is in the tree and rests on it. -/
theorem isLive_and_restsOn (h : Threaded t) (hi : t.lines.isLive i = true)
    (hij : t.ListedBelow i j) : t.lines.isLive j = true ∧ RestsOn t.support i j := by
  induction hij with
  | single hj =>
    obtain ⟨hlive, hs⟩ := (h.mem_children_iff hi).mp hj
    exact ⟨hlive, .single hs⟩
  | tail _ hj ih =>
    obtain ⟨hlive, hs⟩ := (h.mem_children_iff ih.1).mp hj
    exact ⟨hlive, ih.2.tail hs⟩

theorem ascending (h : Threaded t) : t.Ascending where
  ordered := h.ordered
  child_live _ _ hp hc := ((h.mem_children_iff hp).mp hc).1
  irrefl i hi hcycle := h.irrefl i hi (h.isLive_and_restsOn hi hcycle).2

theorem lt_size_of_mem_children (h : Threaded t) (hp : t.lines.isLive p = true)
    (hc : c ∈ (t.line p).children) : c < t.lines.size :=
  Register.lt_size_of_isLive ((h.mem_children_iff hp).mp hc).1

theorem lt_size_of_mem_dependents (h : Threaded t) (hi : t.lines.isLive i = true)
    (hj : j ∈ t.dependents i) : j < t.lines.size :=
  Register.lt_size_of_isLive (h.ascending.isLive_of_mem_dependents hi hj)

/-- The lines that are found below a line are the live ones that rest on it. -/
theorem mem_dependents_iff (h : Threaded t) (hi : t.lines.isLive i = true) :
    j ∈ t.dependents i ↔ t.lines.isLive j = true ∧ RestsOn t.support i j := by
  rw [h.ascending.mem_dependents_iff hi]
  constructor
  · exact h.isLive_and_restsOn hi
  · rintro ⟨hj, hij⟩
    induction hij with
    | single hs => exact .single ((h.mem_children_iff hi).mpr ⟨hj, hs⟩)
    | tail _ hs ih =>
      have hb := h.parent_live _ _ hj hs
      exact .tail (ih hb) ((h.mem_children_iff hb).mpr ⟨hj, hs⟩)

/-- No line rests on itself. -/
theorem not_mem_dependents (h : Threaded t) (hi : t.lines.isLive i = true) :
    i ∉ t.dependents i := fun hmem =>
  h.irrefl i hi ((h.mem_dependents_iff hi).mp hmem).2

theorem not_mem_children (h : Threaded t) (hi : t.lines.isLive i = true) :
    i ∉ (t.line i).children := fun hc =>
  h.irrefl i hi (.single ((h.mem_children_iff hi).mp hc).2)

theorem support_ne (h : Threaded t) (hi : t.lines.isLive i = true) : t.support i ≠ .line i :=
  fun hs => h.irrefl i hi (.single hs)

/-- The line that a line rests on is not listed below it. -/
theorem ne_of_listedBelow (h : Threaded t) (hi : t.lines.isLive i = true)
    (hp : t.support i = .line p) {k : Nat} (hk : k = i ∨ t.ListedBelow i k) : k ≠ p := by
  rintro rfl
  rcases hk with rfl | hk
  · exact h.support_ne hi hp
  · exact h.irrefl i hi ((h.isLive_and_restsOn hi hk).2.tail hp)

/-- The chains that meet a line are those of the line itself and of all that is found below it. -/
theorem meets_iff (h : Threaded t) (hi : t.lines.isLive i = true) (hj : t.lines.isLive j = true) :
    Grounded.Meets t.support (· = i) j ↔ j = i ∨ j ∈ t.dependents i := by
  rw [h.mem_dependents_iff hi]
  constructor
  · rintro ⟨m, rfl, hmj⟩
    rcases Relation.reflTransGen_iff_eq_or_transGen.mp hmj with rfl | hmj
    · exact Or.inl rfl
    · exact Or.inr ⟨hj, hmj⟩
  · rintro (rfl | ⟨-, hij⟩)
    · exact ⟨j, rfl, .refl⟩
    · exact ⟨i, rfl, hij.to_reflTransGen⟩

end Threaded

namespace Tied

variable {t : Tree} {i j p c : Nat}

/-- A line that rests on another one is valid if that one is. -/
theorem valid_of_mem_dependents (h : Tied t) (hi : t.lines.isLive i = true)
    (hj : j ∈ t.dependents i) : (t.line j).valid = (t.line i).valid := by
  obtain ⟨hlive, hij⟩ := (h.mem_dependents_iff hi).mp hj
  rw [Bool.eq_iff_iff, h.valid j hlive, h.valid i hi]
  exact Grounded.iff_of_restsOn hij

/-- A line is as valid as the line it rests on. -/
theorem valid_eq_of_support (h : Tied t) (hc : t.lines.isLive c = true)
    (hp : t.support c = .line p) : (t.line c).valid = (t.line p).valid := by
  have hlive := h.parent_live c p hc hp
  rw [Bool.eq_iff_iff, h.valid c hc, h.valid p hlive]
  exact Grounded.iff_of_line hp

/-- Of the lines that rest on no other one, the premises are valid. -/
theorem valid_of_no_parent (h : Tied t) (hi : t.lines.isLive i = true)
    (hnot : ∀ p, t.support i ≠ .line p) : (t.line i).valid = (t.support i == .premise) := by
  rw [Bool.eq_iff_iff, h.valid i hi, beq_iff_eq]
  constructor
  · intro hg
    cases hg with
    | premise hp => exact hp
    | line hp _ => exact absurd hp (hnot _)
  · exact .premise

/-- The validity that a line remembers is the one that is found by following its chain. -/
theorem restsOnPremise_eq (h : Tied t) (hi : t.lines.isLive i = true) :
    t.restsOnPremise i = (t.line i).valid := by
  rw [Bool.eq_iff_iff, h.restsOnPremise_iff hi, h.valid i hi]

end Tied

theorem Threaded.congr {t u : Tree} (h : Threaded t) (hd : Register.SameDisplay t.lines u.lines)
    (hsupport : u.support = t.support)
    (hchildren : ∀ i, (u.line i).children = (t.line i).children) : Threaded u where
  ordered := h.ordered.congr hd
  parent_live c p hc hp := by
    rw [hd.isLive] at hc ⊢
    exact h.parent_live c p hc (hsupport ▸ hp)
  irrefl i hi := by
    rw [hd.isLive] at hi
    rw [hsupport]
    exact h.irrefl i hi
  children i hi := by
    rw [hd.isLive] at hi
    rw [hchildren, h.children i hi, hd.order, hsupport]

theorem Listed.congr {t u : Tree} (h : Listed t) (hd : Register.SameDisplay t.lines u.lines)
    (hsupport : u.support = t.support)
    (hchildren : ∀ i, (u.line i).children = (t.line i).children) : Listed u := by
  refine { h.toThreaded.congr hd hsupport hchildren with parent := ?_ }
  intro c p hc hp
  rw [hd.isLive] at hc
  rw [hsupport] at hp
  unfold Before
  rw [hd.order]
  exact h.parent c p hc hp

def links (t : Tree) (i : Nat) : Justification × List Nat × Bool × Bool × Bool :=
  let l := t.line i
  (l.justification, l.children, l.checkmarked, l.parentCheckmarked, l.valid)

/-- Whether links and marks are in step depends on them and the display only. -/
theorem Tied.congr {t u : Tree} (h : Tied t) (hd : Register.SameDisplay t.lines u.lines)
    (hlinks : ∀ i, u.links i = t.links i) : Tied u := by
  simp only [links, Prod.mk.injEq] at hlinks
  have hsupport : u.support = t.support := funext fun i => (hlinks i).1
  have hthreaded : Threaded u :=
    h.toThreaded.congr hd hsupport (fun i => (hlinks i).2.1)
  refine { hthreaded with valid := ?_, mirrored := ?_ }
  · intro i hi
    rw [hd.isLive] at hi
    rw [(hlinks i).2.2.2.2, hsupport]
    exact h.valid i hi
  · intro c p hc hp
    rw [hd.isLive] at hc
    rw [hsupport] at hp
    rw [(hlinks c).2.2.2.1, (hlinks p).2.2.1]
    exact h.mirrored c p hc hp

/-- Sound links are still sound in a tree with the same links and display. -/
theorem Linked.congr {t u : Tree} (h : Linked t) (hd : Register.SameDisplay t.lines u.lines)
    (hlinks : ∀ i, u.links i = t.links i) : Linked u := by
  have htied : Tied u := h.toTied.congr hd hlinks
  simp only [links, Prod.mk.injEq] at hlinks
  have hsupport : u.support = t.support := funext fun i => (hlinks i).1
  have hlisted : Listed u := h.toListed.congr hd hsupport (fun i => (hlinks i).2.1)
  refine { hlisted, htied with marked := ?_ }
  intro i hi
  rw [hd.isLive] at hi
  rw [(hlinks i).2.2.2.1, h.marked i hi, hsupport]
  simp only [(hlinks _).2.2.1]

/-- Two trees with sound links are the same if they differ in links only, agree in what the live
lines rest on and which are checkmarked, and agree in their deleted lines. -/
theorem Linked.eq_of_relinked {t u : Tree} (h : Linked t) (hu : Linked u) (hr : Relinked t u)
    (hsupport : ∀ i, t.lines.isLive i = true → u.support i = t.support i)
    (hmark : ∀ i, t.lines.isLive i = true → (u.line i).checkmarked = (t.line i).checkmarked)
    (hdead : ∀ i, t.lines.isLive i ≠ true → u.line i = t.line i) : u = t := by
  have hsupport' : u.support = t.support := by
    funext i
    by_cases hi : t.lines.isLive i = true
    · exact hsupport i hi
    · exact congrArg Line.justification (hdead i hi)
  have hmark' : ∀ i, (u.line i).checkmarked = (t.line i).checkmarked := by
    intro i
    by_cases hi : t.lines.isLive i = true
    · exact hmark i hi
    · rw [hdead i hi]
  apply hr.eq_of_line
  intro i
  by_cases hi : t.lines.isLive i = true
  · have hi' : u.lines.isLive i = true := (hr.isLive i).trans hi
    have hchildren : (u.line i).children = (t.line i).children := by
      rw [hu.children i hi', h.children i hi, hr.order, hsupport']
    have hvalid : (u.line i).valid = (t.line i).valid := by
      rw [Bool.eq_iff_iff, hu.valid i hi', h.valid i hi, hsupport']
    have hparent : (u.line i).parentCheckmarked = (t.line i).parentCheckmarked := by
      rw [hu.marked i hi', h.marked i hi, hsupport']
      simp only [hmark']
    have hjust : (u.line i).justification = (t.line i).justification := hsupport i hi
    have hformula := hr.formula i
    have hnode := hr.node i
    have hbranches := hr.branches i
    have hmark := hmark' i
    cases hl : t.line i
    cases hl' : u.line i
    simp_all
  · exact hdead i hi

end TruthTrees.Tree
