import Mathlib
import LanguageTheory.Regex.Compilation

/-!
Composite names tell sets apart. A name that joins the members of a non-empty set by commas can be
taken apart again as long as no member contains a comma, so two such sets of one name are equal
(`compositeName_inj`). Numbers contain no comma, which gives the same for sets of positions
(`PositionSet.name_inj`). Whatever the members are, the parts of a composite name are the parts of
its members (`nameParts_compositeName`).
-/

set_option autoImplicit false
set_option relaxedAutoImplicit false

namespace LanguageTheory

def CommaFree (name : StateName) : Prop := ',' ∉ name.toList

instance (name : StateName) : Decidable (CommaFree name) := inferInstanceAs (Decidable (¬ _))

private theorem intercalate_comma_inj {names others : List StateName} (names_ne : names ≠ [])
    (others_ne : others ≠ []) (names_free : ∀ name ∈ names, CommaFree name)
    (others_free : ∀ name ∈ others, CommaFree name)
    (same : String.intercalate "," names = String.intercalate "," others) : names = others := by
  have taken (l : List StateName) (ne : l ≠ []) (free : ∀ name ∈ l, CommaFree name) :
      (String.intercalate "," l).toList.splitOn ',' = l.map String.toList := by
    rw [String.toList_intercalate]
    apply List.splitOn_intercalate ','
    · intro chars mem
      obtain ⟨name, hname, rfl⟩ := List.mem_map.mp mem
      exact free name hname
    · simpa using ne
  have lists : names.map String.toList = others.map String.toList := by
    rw [← taken names names_ne names_free, same, taken others others_ne others_free]
  exact List.map_injective_iff.mpr (fun _ _ => String.toList_inj.mp) lists

theorem compositeName_singleton (name : StateName) : compositeName (.singleton name) = name :=
  String.intercalate_singleton

theorem compositeName_inj {s t : SortedSet StateName} {a b : StateName} (ha : a ∈ s) (hb : b ∈ t)
    (s_free : ∀ name ∈ s, CommaFree name) (t_free : ∀ name ∈ t, CommaFree name)
    (same : compositeName s = compositeName t) : s = t := by
  apply SortedSet.eq_of_toList_eq
  exact intercalate_comma_inj (List.ne_nil_of_mem ha) (List.ne_nil_of_mem hb) s_free t_free same

/-- What stands between the commas of a name. -/
def nameParts (name : StateName) : List (List Char) := name.toList.splitOn ','

theorem nameParts_of_commaFree {name : StateName} (free : CommaFree name) :
    nameParts name = [name.toList] := by
  apply List.splitOnP_eq_singleton
  intro char mem
  rw [beq_eq_false_iff_ne]
  rintro rfl
  exact free mem

private theorem nameParts_append_comma (first rest : StateName) :
    nameParts (first ++ "," ++ rest) = nameParts first ++ nameParts rest := by
  have joined : (first ++ "," ++ rest).toList = first.toList ++ ',' :: rest.toList := by simp
  rw [nameParts, joined]
  exact List.splitOnP_append_cons _ _ (beq_self_eq_true ',')

private theorem nameParts_intercalate {names : List StateName} (inhabited : names ≠ []) :
    nameParts (String.intercalate "," names) = names.flatMap nameParts := by
  induction names with
  | nil => exact absurd rfl inhabited
  | cons first rest ih =>
    cases rest with
    | nil => simp
    | cons second rest =>
      rw [String.intercalate_cons_cons, nameParts_append_comma, ih (List.cons_ne_nil second rest),
        List.flatMap_cons (x := first)]

theorem nameParts_compositeName {s : SortedSet StateName} {a : StateName} (mem : a ∈ s) :
    nameParts (compositeName s) = s.toList.flatMap nameParts :=
  nameParts_intercalate (List.ne_nil_of_mem mem)

private theorem commaFree_toString (n : Nat) : CommaFree (toString n) := by
  intro mem
  have digit : (',' : Char).isDigit = true := by
    apply Nat.isDigit_of_mem_toDigits (b := 10) (n := n) (by omega) (by omega)
    rwa [← Nat.toList_repr]
  exact absurd digit (by decide)

theorem PositionSet.name_inj {s t : PositionSet} {p q : Position} (hp : p ∈ s) (hq : q ∈ t)
    (same : PositionSet.name s = PositionSet.name t) : s = t := by
  have numerals_free (u : PositionSet) :
      ∀ name ∈ u.toList.map fun p => toString p, CommaFree name := by
    intro name mem
    obtain ⟨n, _, rfl⟩ := List.mem_map.mp mem
    exact commaFree_toString n
  have numerals : (s.toList.map fun p => toString p) = t.toList.map fun p => toString p := by
    apply intercalate_comma_inj _ _ (numerals_free s) (numerals_free t) same
    · simpa using List.ne_nil_of_mem hp
    · simpa using List.ne_nil_of_mem hq
  have lists : s.toList = t.toList :=
    List.map_injective_iff.mpr (fun _ _ => Nat.repr_injective) numerals
  exact SortedSet.eq_of_toList_eq lists

theorem PositionSet.nameParts_name {s : PositionSet} {p : Position} (mem : p ∈ s) :
    nameParts (PositionSet.name s) = s.toList.map fun p => (toString p).toList := by
  have inhabited : (s.toList.map fun p => toString p) ≠ [] := by
    simpa using List.ne_nil_of_mem mem
  rw [PositionSet.name, nameParts_intercalate inhabited, List.flatMap_map,
    ← List.flatMap_pure_eq_map]
  exact List.flatMap_congr fun p _ => nameParts_of_commaFree (commaFree_toString p)

end LanguageTheory
