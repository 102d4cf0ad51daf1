import TruthTrees.Proofs.Session.Edits
import TruthTrees.Proofs.Session.Outcomes
import TruthTrees.Session.Reachable

/-! What commands do to a session. A command that is carried out and recorded makes an edit, on a
sheet to which the new line or the new branches have been registered. A command that is refused
changes nothing. -/
namespace TruthTrees

def Command.records : Command → Bool
  | .checkAllClosed | .checkAnyOpen | .undo | .redo | .reset => false
  | _ => true

theorem Sheet.extend_nil (s : Sheet) : s.extend ⟨[], []⟩ = s := by
  simp [Sheet.extend, Tree.extend, Register.extend]

theorem Tree.Fits.nil (t : Tree) : t.Fits ⟨[], []⟩ :=
  ⟨by simp, by simp, by simp, by simp, by simp⟩

namespace Session

/-- One session comes from another by a recorded edit. The edit leads to the new sheet from the old
one with remnants, which are what will be left behind when the edit is taken back. -/
inductive Advances (s : Session) : Session → Prop
  | intro {sheet : Sheet} {edit : Edit} (description : String) {r : Tree.Remnants}
    (fits : s.tree.Fits r) (coherent : sheet.Coherent)
    (leads : edit.Leads (s.sheet.extend r) sheet) :
    Advances s (s.recorded sheet edit description)

variable {s s' : Session} {reply : Reply}

/-- Most edits register nothing. -/
theorem Advances.of_leads {sheet : Sheet} {edit : Edit} (description : String)
    (coherent : sheet.Coherent) (leads : edit.Leads s.sheet sheet) :
    Advances s (s.recorded sheet edit description) :=
  .intro description (.nil _) coherent (by rwa [Sheet.extend_nil])

/-- A number that is in use belongs to an entry in the tree. -/
theorem isLive_of_withNumber? {α : Type} {r : Register α} (h : r.Ordered) {number i : Nat}
    (hi : r.withNumber? number = some i) : r.isLive i = true := by
  cases number with
  | zero => simp [Register.withNumber?] at hi
  | succ k => exact (h.mem_iff i).mp (List.mem_of_getElem? hi)

theorem number_of_withNumber? {α : Type} {r : Register α} (h : r.Ordered) {number i : Nat}
    (hi : r.withNumber? number = some i) : r.number i = number := by
  cases number with
  | zero => simp [Register.withNumber?] at hi
  | succ k =>
    obtain ⟨hk, rfl⟩ := List.getElem?_eq_some_iff.mp hi
    exact h.number_getElem hk

/-- Adding a premise is a step that can be taken back. -/
theorem addPremise_advances (h : s.sheet.Coherent) {text : String}
    (hok : s.addPremise text = .ok (s', reply)) : s.Advances s' := by
  obtain ⟨φ, i, t, -, -, ht, -, rfl⟩ := addPremise_ok_iff.mp hok
  obtain ⟨rfl, rfl⟩ := Prod.mk.inj ht
  obtain ⟨r, hfits, hdelete⟩ := h.tree.deleteLine_addPremise φ
  have hcoherent : Sheet.Coherent ⟨(s.tree.addPremise φ).2, s.current⟩ :=
    ⟨h.tree.addPremise φ, (Register.isLive_modify _ _ _ _).trans h.current,
      h.forked.modify h.tree.store.rooted _ (fun _ => ⟨rfl, rfl⟩),
      h.warranted.insert h.tree _ ⟨fun _ => by simp, rfl, rfl, by simp⟩ (fun _ => rfl)⟩
  exact .intro _ hfits hcoherent (.insert hdelete)

/-- Adding a line is a step that can be taken back. -/
theorem addLine_advances (h : s.sheet.Coherent) {text : String}
    (hok : s.addLine text = .ok (s', reply)) : s.Advances s' := by
  obtain ⟨φ, i, t, -, -, hadd, -, rfl⟩ := addLine_ok_iff.mp hok
  obtain ⟨hn, rfl, rfl⟩ := Tree.addLine_ok_iff.mp hadd
  obtain ⟨r, hfits, hdelete⟩ := h.tree.deleteLine_withNewLine hn φ
  have hwarranted : (s.tree.withNewLine s.current φ).Warranted := by
    rw [Tree.withNewLine_eq]
    exact h.warranted.insert h.tree _ ⟨fun _ => by simp, rfl, rfl, by simp⟩ (fun _ => rfl)
  have hcoherent : Sheet.Coherent ⟨s.tree.withNewLine s.current φ, s.current⟩ :=
    ⟨h.tree.withNewLine hn φ, (Register.isLive_modify _ _ _ _).trans h.current,
      h.forked.modify h.tree.store.rooted _ (fun _ => ⟨rfl, rfl⟩), hwarranted⟩
  exact .intro _ hfits hcoherent (.insert hdelete)

/-- Deleting a line is a step that can be taken back. -/
theorem deleteLine_advances (h : s.sheet.Coherent) {number : Nat}
    (hok : s.deleteLine number = .ok (s', reply)) : s.Advances s' := by
  obtain ⟨i, t, -, hdelete, -, rfl⟩ := deleteLine_ok_iff.mp hok
  obtain ⟨hi, hbranches, rfl⟩ := Tree.deleteLine_ok_iff.mp hdelete
  have hcoherent : Sheet.Coherent ⟨s.tree.withoutLine i, s.current⟩ := by
    refine ⟨h.tree.withoutLine hi hbranches, ?_, ?_, h.warranted.withoutLine h.tree hi⟩
    · dsimp only
      rw [Tree.nodes_withoutLine, Register.isLive_modify]
      exact h.current
    · dsimp only
      rw [Tree.nodes_withoutLine]
      exact h.forked.modify h.tree.store.rooted _ (fun _ => ⟨rfl, rfl⟩)
  exact .of_leads _ hcoherent (.remove hdelete)

/-- Justifying a line is a step that can be taken back. -/
theorem justify_advances (h : s.sheet.Coherent) {child parent : Nat}
    (hok : s.justified child parent = .ok (s', reply)) : s.Advances s' := by
  obtain ⟨c, p, t, -, -, hcheck, hlink, -, rfl⟩ := justified_ok_iff.mp hok
  obtain ⟨hplive, hclive, rfl⟩ := Tree.link_ok_iff.mp hlink
  obtain ⟨hsupport, hnumber, hwarrants⟩ := Tree.checkJustify_ok_iff.mp hcheck
  have hlinked := h.tree.linked
  have hbefore : s.tree.Before p c := (hlinked.ordered.number_lt_iff hplive hclive).mp hnumber
  have hrewired := hlinked.rewired_relink hbefore hsupport
  have hnodes := hrewired.relinked.nodes
  have hcoherent : Sheet.Coherent ⟨s.tree.relink p c, s.current⟩ :=
    ⟨h.tree.relinked hrewired.relinked hrewired.linked, hnodes ▸ h.current, hnodes ▸ h.forked,
      h.warranted.relink h.tree hbefore hsupport hwarrants⟩
  exact .of_leads _ hcoherent (.justify hbefore hsupport)

theorem checkCheckmark_ok {t : Tree} {i : Nat} {x : Unit} (hok : t.checkCheckmark i = .ok x) :
    (t.line i).checkmarked = false := by
  unfold Tree.checkCheckmark at hok
  split at hok
  · simp at hok
  · next hi => exact Bool.eq_false_iff.mpr hi

theorem checkmark_advances (h : s.sheet.Coherent) {number : Nat}
    (hok : s.checkmark number = .ok (s', reply)) : s.Advances s' := by
  obtain ⟨i, t, -, hcheckmark, -, rfl⟩ := checkmark_ok_iff.mp hok
  obtain ⟨hi, hcheck, rfl⟩ := Tree.checkmark_ok_iff.mp hcheckmark
  have hcoherent : Sheet.Coherent ⟨s.tree.setCheckmarked i true, s.current⟩ :=
    ⟨h.tree.setCheckmarked hi true, h.current, h.forked, h.warranted.setCheckmarked h.tree hi true⟩
  exact .of_leads _ hcoherent (.checkmark hi (checkCheckmark_ok hcheck))

/-- Branching is a step that can be taken back. -/
theorem branch_advances (h : s.sheet.Coherent) {number : Nat}
    (hok : s.branch number = .ok (s', reply)) : s.Advances s' := by
  obtain ⟨i, l, m, t, -, -, hi, hbranch, -, rfl⟩ := branch_ok_iff.mp hok
  obtain ⟨hn, hleaf, -, -, rfl, rfl, rfl⟩ := Tree.branch_ok_iff.mp hbranch
  obtain ⟨r, hfits, hdelete⟩ := h.tree.deleteBranch_withFork hn hleaf hi
  obtain ⟨hpair, -⟩ := Tree.deleteBranch_ok_iff.mp hdelete
  obtain ⟨hcurrent, -⟩ := Tree.leafPair_ok_iff.mp hpair
  have hcoherent : Sheet.Coherent ⟨s.tree.withFork s.current i, s.current⟩ :=
    ⟨h.tree.withFork hn hleaf hi, hcurrent, h.forked.withFork h.tree.store.rooted hn i,
      h.warranted.withFork h.tree s.current i⟩
  exact .intro _ hfits hcoherent (.graft hdelete)

/-- Deleting a branch is a step that can be taken back. -/
theorem deleteBranch_advances (h : s.sheet.Coherent) (hok : s.deleteBranch = (s', .ok reply)) :
    s.Advances s' := by
  obtain ⟨l, m, t, hdelete, -, rfl⟩ := deleteBranch_ok_iff.mp hok
  have hcoherent : Sheet.Coherent ⟨t, s.current⟩ :=
    ⟨h.tree.of_deleteBranch hdelete, (h.tree.store.rooted.leaf_of_deleteBranch hdelete).1,
      h.forked.of_deleteBranch h.tree hdelete, h.warranted.of_deleteBranch h.tree hdelete⟩
  exact .of_leads _ hcoherent (.prune hdelete)

/-- A refusal to delete branches comes before anything was deleted. -/
theorem deleteBranch_error (h : s.sheet.Coherent) {e : Refusal}
    (herror : s.deleteBranch = (s', .error e)) : s' = s := by
  unfold deleteBranch at herror
  split at herror
  · next t e' hdelete =>
    obtain ⟨rfl, -⟩ := Prod.mk.inj herror
    obtain rfl := h.tree.deleteBranch_error hdelete
    rfl
  · simp at herror

theorem goTo_advances (h : s.sheet.Coherent) {number : Nat}
    (hok : s.goTo number = .ok (s', reply)) : s.Advances s' := by
  obtain ⟨n, hn, -, rfl⟩ := goTo_ok_iff.mp hok
  exact .of_leads _ { h with current := isLive_of_withNumber? h.tree.store.rooted.ordered hn } .goTo

/-- Marks of nodes do not matter. -/
theorem coherent_modifyNode_marks {sheet : Sheet} (h : sheet.Coherent) (n : Nat) {f : Node → Node}
    (hf : ∀ nd, (f nd).stem = nd.stem ∧ (f nd).children = nd.children ∧
      (f nd).lines = nd.lines) :
    Sheet.Coherent { sheet with tree := sheet.tree.modifyNode n f } where
  tree := h.tree.modifyNode_marks n hf
  current := (Register.isLive_modify _ _ _ _).trans h.current
  forked := h.forked.modify h.tree.store.rooted n (fun nd => ⟨(hf nd).1, (hf nd).2.1⟩)
  warranted := h.warranted.modifyNode_marks h.tree n (fun nd => (hf nd).1)

/-- Closing a branch is a step that can be taken back. -/
theorem close_advances (h : s.sheet.Coherent) {first second : Nat}
    (hok : s.close first second = .ok (s', reply)) : s.Advances s' := by
  obtain ⟨i, j, t, -, -, hclosed, hclose, -, rfl⟩ := close_ok_iff.mp hok
  obtain ⟨hn, -, -, -, rfl⟩ := Tree.close_ok_iff.mp hclose
  exact .of_leads _ (coherent_modifyNode_marks h s.current (fun _ => ⟨rfl, rfl, rfl⟩))
    (.close hn hclosed)

theorem reopen_advances (h : s.sheet.Coherent) {number : Nat}
    (hok : s.reopen number = .ok (s', reply)) : s.Advances s' := by
  obtain ⟨n, hn, hclosed, -, rfl⟩ := reopen_ok_iff.mp hok
  exact .of_leads _ (coherent_modifyNode_marks h n (fun _ => ⟨rfl, rfl, rfl⟩))
    (.close (isLive_of_withNumber? h.tree.store.rooted.ordered hn) hclosed)

theorem checkOpen_ok {t : Tree} {n : Nat} {x : Unit} (hok : t.checkOpen n = .ok x) :
    (t.node n).markedOpen = false := by
  unfold Tree.checkOpen at hok
  split at hok
  · simp at hok
  · split at hok
    · simp at hok
    · next hmarked => exact Bool.eq_false_iff.mpr hmarked

theorem markOpen_advances (h : s.sheet.Coherent) (hok : s.markOpen = .ok (s', reply)) :
    s.Advances s' := by
  obtain ⟨t, hmark, -, rfl⟩ := markOpen_ok_iff.mp hok
  obtain ⟨hn, -, hcheck, rfl⟩ := Tree.markOpen_ok_iff.mp hmark
  exact .of_leads _ (coherent_modifyNode_marks h s.current (fun _ => ⟨rfl, rfl, rfl⟩))
    (.markOpen hn (checkOpen_ok hcheck))

theorem exists_run_eq {c : Command} (hok : (s.run c).2.isOk = true) :
    ∃ s' reply, s.run c = (s', .ok reply) := by
  rcases hrun : s.run c with ⟨s', e | reply⟩
  · rw [hrun] at hok
    simp [Except.isOk, Except.toBool] at hok
  · exact ⟨s', reply, rfl⟩

/-- A command that is carried out and recorded makes an edit. -/
theorem run_advances (h : s.sheet.Coherent) {c : Command} (hc : c.records = true)
    (hok : s.run c = (s', .ok reply)) : s.Advances s' := by
  cases c with
  | addPremise text => exact addPremise_advances h (settle_ok_iff.mp hok)
  | addLine text => exact addLine_advances h (settle_ok_iff.mp hok)
  | deleteLine number => exact deleteLine_advances h (settle_ok_iff.mp hok)
  | justify child parent =>
    rw [run, justify_eq_settle] at hok
    exact justify_advances h (settle_ok_iff.mp hok)
  | checkmark number => exact checkmark_advances h (settle_ok_iff.mp hok)
  | branch number => exact branch_advances h (settle_ok_iff.mp hok)
  | deleteBranch => exact deleteBranch_advances h hok
  | goTo number => exact goTo_advances h (settle_ok_iff.mp hok)
  | close first second => exact close_advances h (settle_ok_iff.mp hok)
  | reopen number => exact reopen_advances h (settle_ok_iff.mp hok)
  | markOpen => exact markOpen_advances h (settle_ok_iff.mp hok)
  | checkAllClosed | checkAnyOpen | undo | redo | reset => simp [Command.records] at hc

/-- A refused command changes nothing. -/
theorem run_error (h : s.sheet.Coherent) {c : Command} (hc : c.records = true) {e : Refusal}
    (herror : s.run c = (s', .error e)) : s' = s := by
  cases c with
  | deleteBranch => exact deleteBranch_error h herror
  | justify child parent =>
    rw [run, justify_eq_settle] at herror
    exact settle_error herror
  | checkAllClosed | checkAnyOpen | undo | redo | reset => simp [Command.records] at hc
  | _ => exact settle_error herror

end Session

end TruthTrees
