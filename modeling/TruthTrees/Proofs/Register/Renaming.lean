import Mathlib.Logic.Function.Basic
import TruthTrees.Proofs.Register.Order

/-! Registers that are displayed alike under different identities. A map takes the entries of one
display to those of the other, in order. Nothing is asked of withdrawn entries, so the map says
nothing about them. -/
namespace TruthTrees.Register

variable {α β : Type} {r : Register α} {r' : Register β} {f : Nat → Nat} {i j : Nat}

/-- The second display is the first one under other identities. -/
structure Alike (f : Nat → Nat) (r : Register α) (r' : Register β) : Prop where
  left : r.Ordered
  right : r'.Ordered
  order : r'.order = r.order.map f

namespace Alike

theorem isLive (h : Alike f r r') (hi : r.isLive i = true) : r'.isLive (f i) = true := by
  rw [← h.right.mem_iff, h.order]
  exact List.mem_map_of_mem ((h.left.mem_iff i).mpr hi)

/-- Entries of the display are told apart after renaming as before. -/
theorem inj (h : Alike f r r') (hi : r.isLive i = true) (hj : r.isLive j = true) :
    f i = f j ↔ i = j := by
  have hnodup := h.right.nodup
  rw [h.order] at hnodup
  have hinj := List.inj_on_of_nodup_map hnodup
  exact ⟨hinj ((h.left.mem_iff i).mpr hi) ((h.left.mem_iff j).mpr hj), congrArg f⟩

/-- Every displayed entry comes from one of the other display. -/
theorem exists_eq (h : Alike f r r') (hj : r'.isLive j = true) :
    ∃ i, r.isLive i = true ∧ f i = j := by
  rw [← h.right.mem_iff, h.order] at hj
  obtain ⟨i, hi, rfl⟩ := List.mem_map.mp hj
  exact ⟨i, (h.left.mem_iff i).mp hi, rfl⟩

/-- Corresponding entries have the same number. -/
theorem number (h : Alike f r r') (hi : r.isLive i = true) : r'.number (f i) = r.number i := by
  have hidx : ∀ l : List Nat, (∀ j ∈ l, f j = f i → j = i) →
      (l.map f).idxOf (f i) = l.idxOf i := by
    intro l hl
    induction l with
    | nil => rfl
    | cons a l ih =>
      by_cases ha : a = i
      · simp [ha]
      · have hfa : f a ≠ f i := fun hc => ha (hl a (by simp) hc)
        rw [List.map_cons, List.idxOf_cons_ne _ hfa, List.idxOf_cons_ne _ ha,
          ih (fun j hj => hl j (List.mem_cons_of_mem a hj))]
  rw [h.left.numbered i hi, h.right.numbered _ (h.isLive hi), h.order, hidx]
  intro j hj
  exact (h.inj ((h.left.mem_iff j).mp hj) hi).mp

/-- The number of an entry tells what it corresponds to. -/
theorem eq_of_number (h : Alike f r r') (hi : r.isLive i = true) (hj : r'.isLive j = true)
    (hnumber : r'.number j = r.number i) : j = f i := by
  obtain ⟨k, hk, rfl⟩ := h.exists_eq hj
  rw [h.number hk, h.left.numbered k hk, h.left.numbered i hi] at hnumber
  have hidx : r.order.idxOf k = r.order.idxOf i := by omega
  rw [(List.idxOf_inj ((h.left.mem_iff k).mpr hk)).mp hidx]

/-- The same number is that of corresponding entries. -/
theorem withNumber? (h : Alike f r r') (n : Nat) :
    r'.withNumber? n = (r.withNumber? n).map f := by
  cases n with
  | zero => rfl
  | succ k => simp only [Register.withNumber?, h.order, List.getElem?_map]

/-- Corresponding conditions pick corresponding parts of the displays. -/
theorem filter (h : Alike f r r') {p q : Nat → Bool}
    (hpq : ∀ i, r.isLive i = true → q (f i) = p i) :
    r'.order.filter q = (r.order.filter p).map f := by
  rw [h.order, List.filter_map]
  congr 1
  exact List.filter_congr (fun i hi => hpq i ((h.left.mem_iff i).mp hi))

/-- Displays of the same length correspond place by place. -/
theorem of_length (hr : r.Ordered) (hr' : r'.Ordered)
    (hlength : r'.order.length = r.order.length) :
    Alike (fun i => r'.order.getD (r.order.idxOf i) 0) r r' := by
  refine ⟨hr, hr', List.ext_getElem (by rw [List.length_map, hlength]) ?_⟩
  intro k hk hk'
  rw [List.length_map] at hk'
  rw [List.getElem_map, hr.nodup.idxOf_getElem k hk']
  simp [hk]

theorem congr {α' β' : Type} (h : Alike f r r') {s : Register α'} {s' : Register β'}
    (hd : SameDisplay r s) (hd' : SameDisplay r' s') : Alike f s s' where
  left := h.left.congr hd
  right := h.right.congr hd'
  order := by rw [hd'.order, h.order, hd.order]

theorem modify (h : Alike f r r') (i j : Nat) (g : α → α) (g' : β → β) :
    Alike f (r.modify i g) (r'.modify j g') :=
  h.congr (SameDisplay.modify r i g) (SameDisplay.modify r' j g')

/-- Registers stay alike when corresponding entries are withdrawn. -/
theorem withdraw (h : Alike f r r') (hi : r.isLive i = true) :
    Alike f (r.withdraw i) (r'.withdraw (f i)) where
  left := h.left.withdraw hi
  right := h.right.withdraw (h.isLive hi)
  order := by
    rw [h.left.order_withdraw hi, h.right.order_withdraw (h.isLive hi), h.left.erase_eq_filter,
      h.right.erase_eq_filter]
    apply h.filter
    intro j hj
    simp [h.inj hj hi]

/-- New entries at the same place correspond to each other. -/
theorem insert (h : Alike f r r') {k : Nat} (hk : k ≤ r.order.length) (a : α) (b : β) :
    Alike (Function.update f r.size r'.size) (r.insert k a) (r'.insert k b) where
  left := h.left.insert hk a
  right := by
    apply h.right.insert
    rw [h.order, List.length_map]
    exact hk
  order := by
    have hold : r.order.map (Function.update f r.size r'.size) = r.order.map f := by
      apply List.map_congr_left
      intro j hj
      have hlt := lt_size_of_isLive ((h.left.mem_iff j).mp hj)
      exact Function.update_of_ne (Nat.ne_of_lt hlt) _ _
    rw [order_insert, order_insert, List.map_insertIdx, hold, h.order, Function.update_self]

end Alike

end TruthTrees.Register
