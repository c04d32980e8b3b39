import Mathlib.Data.List.Forall2
import Mathlib.Data.List.Perm.Subperm
import Manifest.Proofs.Content
import Manifest.Text.Units

/-!
# The order of the units

A text is determined by its 16-bit units (`units_inj`), so their order is a linear order of the
texts: `unitsLe` is total, transitive and antisymmetric.  Sorting entries by their keys therefore
has one result only: records with the same distinct keys have them in one order
(`map_fst_sortByUnits_eq`), and they hold related values under all their keys exactly if the sorted
entries are related one by one (`forall₂_sortByUnits_iff`).
-/

namespace Manifest

namespace Text

/-! ### Units determine a text -/

theorem toNat_cases (c : Char) : c.toNat < 0xD800 ∨ 0xE000 ≤ c.toNat ∧ c.toNat < 0x110000 := by
  rcases c.valid with h | ⟨hlow, hhigh⟩
  · exact Or.inl h
  · exact Or.inr ⟨hlow, hhigh⟩

/-- The units at the front of a text give its first character. -/
theorem unitsOfChar_append_inj {c d : Char} {s t : List Nat}
    (h : unitsOfChar c ++ s = unitsOfChar d ++ t) : c = d ∧ s = t := by
  have hc := toNat_cases c
  have hd := toNat_cases d
  unfold unitsOfChar at h
  by_cases hcs : c.toNat < 0x10000 <;> by_cases hds : d.toNat < 0x10000
  · simp only [hcs, hds, if_true, List.cons_append, List.nil_append, List.cons.injEq] at h
    exact ⟨Char.toNat_inj.mp h.1, h.2⟩
  · simp only [hcs, hds, if_true, if_false, List.cons_append, List.nil_append,
      List.cons.injEq] at h
    omega
  · simp only [hcs, hds, if_true, if_false, List.cons_append, List.nil_append,
      List.cons.injEq] at h
    omega
  · simp only [hcs, hds, if_false, List.cons_append, List.nil_append, List.cons.injEq] at h
    exact ⟨Char.toNat_inj.mp (by omega), h.2.2⟩

theorem unitsOfChar_ne_nil (c : Char) : unitsOfChar c ≠ [] := by
  unfold unitsOfChar
  split <;> exact List.cons_ne_nil _ _

theorem flatMap_unitsOfChar_inj {a b : List Char}
    (h : a.flatMap unitsOfChar = b.flatMap unitsOfChar) : a = b := by
  induction a generalizing b with
  | nil =>
    cases b with
    | nil => rfl
    | cons d more =>
      rw [List.flatMap_nil, List.flatMap_cons, eq_comm, List.append_eq_nil_iff] at h
      exact absurd h.1 (unitsOfChar_ne_nil d)
  | cons c rest ih =>
    cases b with
    | nil =>
      rw [List.flatMap_nil, List.flatMap_cons, List.append_eq_nil_iff] at h
      exact absurd h.1 (unitsOfChar_ne_nil c)
    | cons d more =>
      rw [List.flatMap_cons, List.flatMap_cons] at h
      obtain ⟨rfl, hr⟩ := unitsOfChar_append_inj h
      rw [ih hr]

theorem units_inj {s t : String} (h : units s = units t) : s = t :=
  String.toList_injective (flatMap_unitsOfChar_inj h)

/-! ### A linear order -/

theorem listLe_cons {x y : Nat} {s t : List Nat} :
    listLe (x :: s) (y :: t) = true ↔ x < y ∨ x = y ∧ listLe s t = true := by
  simp [listLe]

theorem listLe_total (a b : List Nat) : listLe a b = true ∨ listLe b a = true := by
  induction a generalizing b with
  | nil => exact Or.inl rfl
  | cons x s ih =>
    cases b with
    | nil => exact Or.inr rfl
    | cons y t =>
      rw [listLe_cons, listLe_cons]
      rcases Nat.lt_trichotomy x y with hlt | heq | hgt
      · exact Or.inl (Or.inl hlt)
      · exact (ih t).imp (fun h => Or.inr ⟨heq, h⟩) fun h => Or.inr ⟨heq.symm, h⟩
      · exact Or.inr (Or.inl hgt)

theorem listLe_trans {a b c : List Nat} (hab : listLe a b = true) (hbc : listLe b c = true) :
    listLe a c = true := by
  induction a generalizing b c with
  | nil => rfl
  | cons x s ih =>
    cases b with
    | nil => cases hab
    | cons y t =>
      cases c with
      | nil => cases hbc
      | cons z u =>
        rw [listLe_cons] at hab hbc ⊢
        rcases hab with hxy | ⟨rfl, hst⟩
        · rcases hbc with hyz | ⟨rfl, -⟩
          · exact Or.inl (Nat.lt_trans hxy hyz)
          · exact Or.inl hxy
        · rcases hbc with hxz | ⟨rfl, htu⟩
          · exact Or.inl hxz
          · exact Or.inr ⟨rfl, ih hst htu⟩

theorem listLe_antisymm {a b : List Nat} (hab : listLe a b = true) (hba : listLe b a = true) :
    a = b := by
  induction a generalizing b with
  | nil =>
    cases b with
    | nil => rfl
    | cons y t => cases hba
  | cons x s ih =>
    cases b with
    | nil => cases hab
    | cons y t =>
      rw [listLe_cons] at hab hba
      rcases hab with hxy | ⟨rfl, hst⟩
      · omega
      · rcases hba with hxx | ⟨-, hts⟩
        · exact absurd hxx (Nat.lt_irrefl x)
        · rw [ih hst hts]

theorem unitsLe_total (s t : String) : (unitsLe s t || unitsLe t s) = true :=
  (Bool.or_eq_true _ _).mpr (listLe_total _ _)

theorem unitsLe_trans (s t u : String) (hst : unitsLe s t = true) (htu : unitsLe t u = true) :
    unitsLe s u = true :=
  listLe_trans hst htu

theorem unitsLe_antisymm (s t : String) (hst : unitsLe s t = true) (hts : unitsLe t s = true) :
    s = t :=
  units_inj (listLe_antisymm hst hts)

/-! ### Sorting -/

section Sorting
variable {α β : Type}

theorem pairwise_sortByUnits (m : Fields α) :
    (sortByUnits m).Pairwise fun a b => unitsLe a.1 b.1 = true := by
  unfold sortByUnits
  refine List.pairwise_mergeSort ?_ ?_ m
  · intro a b c
    exact unitsLe_trans a.1 b.1 c.1
  · intro a b
    exact unitsLe_total a.1 b.1

theorem sortByUnits_map (f : String × α → β) (m : Fields α) :
    sortByUnits (m.map fun e => (e.1, f e)) = (sortByUnits m).map fun e => (e.1, f e) := by
  unfold sortByUnits
  symm
  apply List.map_mergeSort
  intro a _ b _
  rfl

theorem map_fst_sortByUnits_eq {m : Fields α} {other : Fields β}
    (h : (Fields.keys m).Perm (Fields.keys other)) :
    (sortByUnits m).map Prod.fst = (sortByUnits other).map Prod.fst := by
  have hm := (sortByUnits_perm m).map Prod.fst
  have ho := (sortByUnits_perm other).map Prod.fst
  refine List.Perm.eq_of_pairwise (fun s t _ _ => unitsLe_antisymm s t) ?_ ?_
    (hm.trans (h.trans ho.symm))
  · exact List.pairwise_map.mpr (pairwise_sortByUnits m)
  · exact List.pairwise_map.mpr (pairwise_sortByUnits other)

end Sorting

end Text

namespace Fields

open Text

section Match
variable {α β : Type} {R : α → β → Prop}

theorem exists_of_forall₂ {γ δ : Type} {S : γ → δ → Prop} {s : List γ} {t : List δ}
    (h : List.Forall₂ S s t) {x : γ} (hx : x ∈ s) : ∃ y ∈ t, S x y := by
  induction h with
  | nil => cases hx
  | @cons a b s t hab hst ih =>
    rcases List.mem_cons.mp hx with rfl | hx
    · exact ⟨b, List.mem_cons_self, hab⟩
    · obtain ⟨y, hy, hxy⟩ := ih hx
      exact ⟨y, List.mem_cons_of_mem _ hy, hxy⟩

theorem forall₂_imp_of_mem {γ δ : Type} {S T : γ → δ → Prop} {s : List γ} {t : List δ}
    (h : List.Forall₂ S s t) (himp : ∀ x ∈ s, ∀ y ∈ t, S x y → T x y) : List.Forall₂ T s t := by
  rw [List.forall₂_iff_zip] at h ⊢
  refine ⟨h.1, fun hxy => ?_⟩
  obtain ⟨hx, hy⟩ := List.of_mem_zip hxy
  exact himp _ hx _ hy (h.2 hxy)

theorem forall₂_of_map_fst_eq {s : Fields α} {t : Fields β}
    (hkeys : s.map Prod.fst = t.map Prod.fst)
    (h : ∀ e ∈ s, ∀ f ∈ t, e.1 = f.1 → R e.2 f.2) :
    List.Forall₂ (fun e f => e.1 = f.1 ∧ R e.2 f.2) s t := by
  induction s generalizing t with
  | nil =>
    rw [List.map_nil, eq_comm, List.map_eq_nil_iff] at hkeys
    rw [hkeys]
    exact .nil
  | cons e rest ih =>
    cases t with
    | nil => simp at hkeys
    | cons f others =>
      obtain ⟨hk, hr⟩ := List.cons.inj hkeys
      exact .cons ⟨hk, h e List.mem_cons_self f List.mem_cons_self hk⟩
        (ih hr fun e he f hf => h e (List.mem_cons_of_mem _ he) f (List.mem_cons_of_mem _ hf))

variable {m : Fields α} {other : Fields β}

/-- Records with distinct keys hold related values under the same keys exactly if their sorted
entries are related one by one. -/
theorem forall₂_sortByUnits_iff (hm : Distinct m) (ho : Distinct other) :
    List.Forall₂ (fun e f => e.1 = f.1 ∧ R e.2 f.2) (sortByUnits m) (sortByUnits other) ↔
      m.length = other.length ∧ ∀ e ∈ m, ∃ v, get? other e.1 = some v ∧ R e.2 v := by
  have hmp := sortByUnits_perm m
  have hop := sortByUnits_perm other
  constructor
  · intro h
    refine ⟨by rw [← hmp.length_eq, h.length_eq, hop.length_eq], fun e he => ?_⟩
    obtain ⟨f, hf, hk, hr⟩ := exists_of_forall₂ h (hmp.mem_iff.mpr he)
    exact ⟨f.2, hk ▸ get?_of_mem ho (hop.mem_iff.mp hf), hr⟩
  · rintro ⟨hlen, hall⟩
    have hsub : keys m ⊆ keys other := by
      intro key hkey
      obtain ⟨e, he, rfl⟩ := List.mem_map.mp hkey
      obtain ⟨v, hv, -⟩ := hall e he
      exact List.mem_map_of_mem (f := Prod.fst) (mem_of_get? hv)
    have hperm : (keys m).Perm (keys other) :=
      (List.subperm_of_subset hm hsub).perm_of_length_le (by simp [keys, hlen])
    refine forall₂_of_map_fst_eq (map_fst_sortByUnits_eq hperm) fun e he f hf hk => ?_
    obtain ⟨v, hv, hr⟩ := hall e (hmp.mem_iff.mp he)
    rw [hk, get?_of_mem ho (hop.mem_iff.mp hf), Option.some.injEq] at hv
    exact hv ▸ hr

end Match

theorem sortByUnits_eq_of_perm {α : Type} {m sorted : Fields α} (hp : m.Perm sorted)
    (hd : Distinct sorted) (hs : sorted.Pairwise fun a b => unitsLe a.1 b.1 = true) :
    sortByUnits m = sorted := by
  have hperm := (sortByUnits_perm m).trans hp
  refine List.Perm.eq_of_pairwise (fun a b ha hb hab hba => ?_) (pairwise_sortByUnits m) hs hperm
  have hk : a.1 = b.1 := unitsLe_antisymm a.1 b.1 hab hba
  have ha' := get?_of_mem hd (hperm.mem_iff.mp ha)
  rw [hk, get?_of_mem hd hb, Option.some.injEq] at ha'
  exact Prod.ext hk ha'.symm

end Fields

end Manifest
