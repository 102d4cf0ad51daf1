import Mathlib.Data.List.InsertIdx
import Mathlib.Data.List.Nodup
import Mathlib.Data.List.Perm.Subperm
import Mathlib.Data.List.TakeWhile

/-! Facts about results that may be refused, about computations that may break off, and about places
in a list. None of them speaks of trees or formulas. -/

namespace Except

variable {ε ε' α β : Type}

/-- A computation in two stages ends well exactly when both stages do. -/
theorem bind_ok_iff {x : Except ε α} {f : α → Except ε β} {b : β} :
    (x >>= f) = .ok b ↔ ∃ a, x = .ok a ∧ f a = .ok b := by
  cases x with
  | error e => simp [bind, Except.bind]
  | ok a => simp [bind, Except.bind]

theorem pure_ok_iff {a b : α} : (pure a : Except ε α) = .ok b ↔ a = b := by
  simp [pure, Except.pure]

theorem mapError_ok_iff {f : ε → ε'} {x : Except ε α} {a : α} :
    x.mapError f = .ok a ↔ x = .ok a := by
  cases x <;> simp [Except.mapError]

theorem map_snd_ok_iff {x : Except ε (α × β)} {b : β} :
    x.map Prod.snd = .ok b ↔ ∃ a, x = .ok (a, b) := by
  cases x with
  | error e => simp [Except.map]
  | ok p => simp [Except.map, Prod.ext_iff]

end Except

namespace List

section Places

variable {α : Type} {l l' : List α} {k : Nat} {a : α} {p : α → Bool}

theorem modify_append_of_lt (h : k < l.length) (f : α → α) :
    (l ++ l').modify k f = l.modify k f ++ l' := by
  induction l generalizing k with
  | nil => simp at h
  | cons b l ih =>
    cases k with
    | zero => simp
    | succ k => simp [ih (by simpa using h)]

theorem insertIdx_eq_append (h : k ≤ l.length) (a : α) :
    l.insertIdx k a = l.take k ++ a :: l.drop k := by
  induction l generalizing k with
  | nil =>
    obtain rfl : k = 0 := by simpa using h
    rfl
  | cons b l ih =>
    cases k with
    | zero => rfl
    | succ k =>
      rw [insertIdx_succ_cons, ih (by simpa using h), take_succ_cons, drop_succ_cons, cons_append]

/-- What does not let an entry through does not see that it was put into a list. -/
theorem filter_insertIdx_of_false (h : p a = false) :
    (l.insertIdx k a).filter p = l.filter p := by
  induction l generalizing k with
  | nil => cases k <;> simp [h]
  | cons b l ih =>
    cases k with
    | zero => simp [h]
    | succ k => simp only [insertIdx_succ_cons, filter_cons, ih]

/-- Where what has a property comes first in a list, it is found without going through all of it. -/
theorem takeWhile_eq_filter (h : l.Pairwise (fun a b => p b = true → p a = true)) :
    l.takeWhile p = l.filter p := by
  induction l with
  | nil => rfl
  | cons a l ih =>
    obtain ⟨ha, hl⟩ := pairwise_cons.mp h
    by_cases hp : p a = true
    · rw [takeWhile_cons_of_pos hp, filter_cons_of_pos hp, ih hl]
    · have hnone : l.filter p = [] :=
        filter_eq_nil_iff.mpr (fun b hb hpb => hp (ha b hb hpb))
      rw [takeWhile_cons_of_neg hp, filter_cons_of_neg hp, hnone]

theorem insertIdx_takeWhile (a : α) :
    l.insertIdx (l.takeWhile p).length a = l.takeWhile p ++ a :: l.dropWhile p := by
  induction l with
  | nil => rfl
  | cons b l ih =>
    by_cases hp : p b = true
    · rw [takeWhile_cons_of_pos hp, dropWhile_cons_of_pos hp, length_cons, insertIdx_succ_cons, ih,
        cons_append]
    · rw [takeWhile_cons_of_neg hp, dropWhile_cons_of_neg hp]
      rfl

/-- What has a property still comes first when one more that has it is entered behind the others. -/
theorem pairwise_insertIdx_takeWhile (h : l.Pairwise (fun a b => p b = true → p a = true))
    (ha : p a = true) :
    (l.insertIdx (l.takeWhile p).length a).Pairwise (fun a b => p b = true → p a = true) := by
  have hbefore : ∀ b ∈ l.takeWhile p, p b = true := fun b hb =>
    all_eq_true.mp all_takeWhile b hb
  have hafter : (l.dropWhile p).Pairwise (fun a b => p b = true → p a = true) :=
    h.sublist (dropWhile_sublist p)
  rw [insertIdx_takeWhile, pairwise_append, pairwise_cons]
  refine ⟨h.sublist (takeWhile_sublist p), ⟨fun _ _ _ => ha, hafter⟩, ?_⟩
  exact fun b hb _ _ _ => hbefore b hb

/-- The first find over joined lists is the first of the finds in each. -/
theorem findSome?_flatMap {β γ : Type} {f : β → Option γ} {g : α → List β} {h : α → Option γ}
    (hg : ∀ a ∈ l, h a = (g a).findSome? f) : (l.flatMap g).findSome? f = l.findSome? h := by
  induction l with
  | nil => rfl
  | cons a l ih =>
    rw [forall_mem_cons] at hg
    rw [flatMap_cons, findSome?_append, ih hg.2, findSome?_cons, hg.1]
    cases (g a).findSome? f <;> rfl

end Places

section Identities

variable {l : List Nat} {i j k : Nat} {p : Nat → Bool}

/-- What happens to a list behind an entry does not change the place of that entry. -/
theorem idxOf_eq_of_take_eq {l' : List Nat} (h : l'.take k = l.take k) (hj : j ∈ l.take k) :
    l'.idxOf j = l.idxOf j := by
  have hmem : j ∈ l'.take k := h ▸ hj
  rw [← IsPrefix.idxOf_eq_of_mem ( take_prefix k l) hj, ← h,
    IsPrefix.idxOf_eq_of_mem ( take_prefix k l') hmem]

theorem idxOf_insertIdx_of_lt (hj : j ∈ l) (hlt : l.idxOf j < k) :
    (l.insertIdx k i).idxOf j = l.idxOf j :=
  idxOf_eq_of_take_eq (take_insertIdx_eq_take_of_le l i k k (Nat.le_refl k))
    ((mem_take_iff_idxOf_lt hj).mpr hlt)

theorem idxOf_insertIdx_self (hk : k ≤ l.length) (hi : i ∉ l) : (l.insertIdx k i).idxOf i = k := by
  have hmem : i ∉ l.take k := fun hc => hi (mem_of_mem_take hc)
  rw [insertIdx_eq_append hk, idxOf_append_of_notMem hmem, idxOf_cons_self, length_take,
    Nat.min_eq_left hk, Nat.add_zero]

/-- An element put in behind all that pass a test comes last among them. -/
theorem filter_insertIdx_of_lt (hn : l.Nodup) (hk : k ≤ l.length) (hi : p i = true)
    (hlt : ∀ j ∈ l, p j = true → l.idxOf j < k) :
    (l.insertIdx k i).filter p = l.filter p ++ [i] := by
  have hdrop : (l.drop k).filter p = [] := by
    rw [filter_eq_nil_iff]
    intro j hj hpj
    have hjl := mem_of_mem_drop hj
    have htake : j ∈ l.take k := (mem_take_iff_idxOf_lt hjl).mpr (hlt j hjl hpj)
    exact disjoint_take_drop hn (Nat.le_refl k) htake hj
  conv_rhs => rw [← take_append_drop k l]
  rw [insertIdx_eq_append hk, filter_append, filter_append, filter_cons_of_pos hi, hdrop,
    append_nil]

/-- In a list without repetitions, one entry comes first exactly when the pair is a part of the
list. -/
theorem idxOf_lt_idxOf_iff (hn : l.Nodup) (hi : i ∈ l) (hj : j ∈ l) :
    l.idxOf i < l.idxOf j ↔ [i, j].Sublist l := by
  induction l with
  | nil => simp at hi
  | cons a l ih =>
    obtain ⟨ha, hn⟩ := nodup_cons.mp hn
    by_cases hia : i = a
    · subst hia
      by_cases hji : j = i
      · subst hji
        simp [cons_sublist_cons, ha]
      · have hjl : j ∈ l := (mem_cons.mp hj).resolve_left hji
        simp [idxOf_cons_ne _ (Ne.symm hji), hjl]
    · have hil : i ∈ l := (mem_cons.mp hi).resolve_left hia
      rw [idxOf_cons_ne _ (Ne.symm hia), sublist_cons_iff]
      by_cases hja : j = a
      · subst hja
        have hsub : ¬ [i, j].Sublist l := fun h => ha (h.subset (by simp))
        simp [hsub, hia]
      · have hjl : j ∈ l := (mem_cons.mp hj).resolve_left hja
        simp [idxOf_cons_ne _ (Ne.symm hja), ih hn hil hjl, hia]

/-- What is taken out of a list behind an entry does not change the place of that entry. -/
theorem idxOf_filter_of_suffix (hn : l.Nodup) (hi : i ∈ l)
    (hp : ∀ j ∈ l, p j = false → [i, j].Sublist l) : (l.filter p).idxOf i = l.idxOf i := by
  induction l with
  | nil => simp at hi
  | cons a l ih =>
    obtain ⟨ha, hn⟩ := nodup_cons.mp hn
    by_cases hia : i = a
    · subst hia
      have hpi : p i = true := by
        by_contra hc
        have hsub := hp i (by simp) (by simpa using hc)
        rw [cons_sublist_cons] at hsub
        exact ha (hsub.subset (by simp))
      rw [filter_cons_of_pos hpi, idxOf_cons_self, idxOf_cons_self]
    · have hil : i ∈ l := (mem_cons.mp hi).resolve_left hia
      have hpa : p a = true := by
        by_contra hc
        rcases sublist_cons_iff.mp (hp a (by simp) (by simpa using hc)) with h | ⟨r, hr, -⟩
        · exact ha (h.subset (by simp))
        · exact hia (cons.inj hr).1
      rw [filter_cons_of_pos hpa, idxOf_cons_ne _ (Ne.symm hia), idxOf_cons_ne _ (Ne.symm hia),
        ih hn hil]
      intro j hj hpj
      rcases sublist_cons_iff.mp (hp j (by simp [hj]) hpj) with h | ⟨r, hr, -⟩
      · exact h
      · exact absurd (cons.inj hr).1 hia

end Identities

section Partial

variable {α β : Type} {l : List α}

theorem filterM_eq_some {p : α → Option Bool} {q : α → Bool} (h : ∀ a ∈ l, p a = some (q a)) :
    l.filterM p = some (l.filter q) := by
  have haux : ∀ acc, l.filterAuxM p acc = some ((l.filter q).reverse ++ acc) := by
    induction l with
    | nil => exact fun acc => rfl
    | cons a l ih =>
      intro acc
      have hrest := ih (fun b hb => h b (by simp [hb]))
      rw [filterAuxM, h a (by simp), Option.bind_eq_bind, Option.bind_some, hrest]
      cases hq : q a <;> simp [hq]
  rw [filterM, haux]
  simp

theorem mapM_eq_some {f : α → Option β} {g : α → β} (h : ∀ a ∈ l, f a = some (g a)) :
    l.mapM f = some (l.map g) := by
  induction l with
  | nil => rfl
  | cons a l ih =>
    rw [mapM_cons, h a (by simp), ih (fun b hb => h b (by simp [hb]))]
    rfl

theorem allM_eq_some {p : α → Option Bool} {q : α → Bool} (h : ∀ a ∈ l, p a = some (q a)) :
    l.allM p = some (l.all q) := by
  induction l with
  | nil => rfl
  | cons a l ih =>
    rw [allM, h a (by simp), Option.bind_eq_bind, Option.bind_some,
      ih (fun b hb => h b (by simp [hb]))]
    cases hq : q a <;> simp [hq]

theorem anyM_eq_some {p : α → Option Bool} {q : α → Bool} (h : ∀ a ∈ l, p a = some (q a)) :
    l.anyM p = some (l.any q) := by
  induction l with
  | nil => rfl
  | cons a l ih =>
    rw [anyM, h a (by simp), Option.bind_eq_bind, Option.bind_some,
      ih (fun b hb => h b (by simp [hb]))]
    cases hq : q a <;> simp [hq]

theorem findSomeM?_eq_some {f : α → Option (Option β)} {g : α → Option β}
    (h : ∀ a ∈ l, f a = some (g a)) : l.findSomeM? f = some (l.findSome? g) := by
  induction l with
  | nil => rfl
  | cons a l ih =>
    rw [findSomeM?, h a (by simp), Option.bind_eq_bind, Option.bind_some,
      ih (fun b hb => h b (by simp [hb]))]
    cases hg : g a <;> simp [hg]

end Partial

end List
