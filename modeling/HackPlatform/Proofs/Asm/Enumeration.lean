import Mathlib.Data.List.Basic
import HackPlatform.Proofs.Asm.Variables

/-!
# The tables as the map gives them

The map of addresses has all that the two logs of a table have. Looking up the labels one by one
gives each at its position. The entries that are neither labels nor predefined are the variables,
and their addresses put them in the order of their first uses, however the map is walked.
-/

namespace HackPlatform.Asm

namespace SymbolTable

variable {t : SymbolTable} {Fixed : String → UInt16 → Prop}

theorem isVariable_iff {name : String} :
    t.isVariable name = true ↔ (∀ v, (name, v) ∉ t.labels) ∧ ∀ v, (name, v) ∉ predefined := by
  simp only [isVariable, Bool.and_eq_true, Bool.not_eq_true', Array.any_eq_false',
    List.any_eq_false, beq_iff_eq, Prod.forall]
  constructor
  · rintro ⟨label, named⟩
    exact ⟨fun v mem => label name v mem rfl, fun v mem => named name v mem rfl⟩
  · rintro ⟨label, named⟩
    exact ⟨fun _ v mem same => label v (same ▸ mem), fun _ v mem same => named v (same ▸ mem)⟩

/-- A name that has no address before the second pass is taken for a variable, and no other. -/
theorem isVariable_iff_not_fixed {code : List (Statement String)}
    (labels : rows t.labels = labelsFrom 0 code) {name : String} :
    t.isVariable name = true ↔ ∀ v, ¬Asm.Fixed code name v := by
  have label : (∃ v, (name, v) ∈ t.labels) ↔ ∃ k, (name, k) ∈ labelsFrom 0 code := by
    rw [← labels, rows]
    constructor
    · rintro ⟨v, mem⟩
      exact ⟨_, List.mem_map.2 ⟨_, Array.mem_toList_iff.2 mem, rfl⟩⟩
    · rintro ⟨k, mem⟩
      obtain ⟨⟨_, v⟩, row, same⟩ := List.mem_map.1 mem
      cases same
      exact ⟨v, Array.mem_toList_iff.1 row⟩
  rw [isVariable_iff, ← not_exists, label]
  constructor
  · rintro ⟨unlabelled, unnamed⟩ v (mem | ⟨k, mem, -⟩)
    · exact unnamed v mem
    · exact unlabelled ⟨k, mem⟩
  · intro free
    refine ⟨?_, fun v mem => free v (.inl mem)⟩
    rintro ⟨k, mem⟩
    exact free _ (.inr ⟨k, mem, rfl⟩)

/-- A map lists none of its entries twice. -/
theorem nodup_toList (map : Std.TreeMap String UInt16) : map.toList.Nodup := by
  refine List.Pairwise.imp ?_ Std.TreeMap.distinct_keys_toList
  rintro a _ apart rfl
  exact apart Std.ReflCmp.compare_self

/-- The variables are logged by address. -/
theorem Numbered.pairwise_vars (h : t.Numbered Fixed) :
    t.vars.toList.Pairwise fun a b => a.2 < b.2 := by
  rw [List.pairwise_iff_getElem]
  intro i j hi hj before
  have place (k : Nat) (inside : k < t.vars.toList.length) :
      t.vars.toList[k].2.toNat = 16 + k := by
    refine h.index k t.vars.toList[k].1 _ ?_
    rw [← Array.getElem?_toList, List.getElem?_eq_getElem inside]
  rw [UInt16.lt_iff_toNat_lt, place i hi, place j hj]
  omega

section Sorting

variable (h : t.Numbered Fixed) (free : ∀ name, t.isVariable name = true ↔ ∀ v, ¬Fixed name v)
  {entries : List (String × UInt16)} (all : entries.Perm t.addresses.toList)

include h free all

/-- Where the variables are the names that are not fixed, the entries of the map for them are the
logged ones. -/
theorem Numbered.perm_vars :
    (entries.filter fun entry => t.isVariable entry.1).Perm t.vars.toList := by
  have once : entries.Nodup := all.nodup_iff.2 (nodup_toList _)
  have distinct : t.vars.toList.Nodup := by
    refine List.Pairwise.imp ?_ h.pairwise_vars
    rintro a _ below rfl
    exact UInt16.lt_irrefl _ below
  rw [List.perm_ext_iff_of_nodup (once.filter _) distinct]
  rintro ⟨name, v⟩
  rw [List.mem_filter, all.mem_iff, Std.TreeMap.mem_toList_iff_getElem?_eq_some, free,
    Array.mem_toList_iff]
  constructor
  · rintro ⟨there, new⟩
    exact (h.known name v there).resolve_left (new v)
  · exact h.vars name v

/-- Sorting them leaves no choice, as no two variables have one address. -/
theorem Numbered.sortVariables_eq : t.sortVariables entries = t.vars.toList := by
  have same := (List.mergeSort_perm _ fun a b => decide (a.2 ≤ b.2)).trans (h.perm_vars free all)
  refine List.Perm.eq_of_pairwise ?_ (List.pairwise_mergeSort ?_ ?_ _)
    (h.pairwise_vars.imp fun below => decide_eq_true (UInt16.le_of_lt below)) same
  · rintro ⟨a, v⟩ ⟨b, w⟩ here there le ge
    obtain rfl : v = w := UInt16.le_antisymm (of_decide_eq_true le) (of_decide_eq_true ge)
    rw [sortVariables, same.mem_iff, Array.mem_toList_iff] at here
    rw [h.var_injective here (Array.mem_toList_iff.1 there)]
  · intro a b c le more
    exact decide_eq_true (UInt16.le_trans (of_decide_eq_true le) (of_decide_eq_true more))
  · intro a b
    rw [Bool.or_eq_true, decide_eq_true_iff, decide_eq_true_iff]
    exact UInt16.le_total a.2 b.2

end Sorting

end SymbolTable

namespace Assembled

variable {code : List (Statement String)} {p : Program} (h : Assembled code p)
  (labels : rows p.symbols.labels = labelsFrom 0 code)

include h labels

/-- The logged labels are at the addresses that the map has for them. -/
theorem labelRows_eq : p.symbols.labelRows = p.symbols.labels.toList := by
  have there : ∀ row ∈ p.symbols.labels.toList,
      (p.symbols.get? row.1).map (row.1, ·) = some row := by
    rintro ⟨name, v⟩ mem
    have label : (name, v.toNat) ∈ labelsFrom 0 code := labels ▸ List.mem_map.2 ⟨_, mem, rfl⟩
    rw [h.numbered.fixed name v (.inr ⟨_, label, UInt16.ofNat_toNat.symm⟩)]
    rfl
  rw [SymbolTable.labelRows, List.filterMap_congr there, List.filterMap_some]

/-- Sorted by address, the entries of the map give the variables by first use, in whatever order
they are taken. -/
theorem sortVariables_eq {entries : List (String × UInt16)}
    (all : entries.Perm p.symbols.addresses.toList) :
    p.symbols.sortVariables entries = p.symbols.vars.toList :=
  h.numbered.sortVariables_eq (fun _ => SymbolTable.isVariable_iff_not_fixed labels) all

theorem variableRows_eq : p.symbols.variableRows = p.symbols.vars.toList :=
  h.sortVariables_eq labels (.refl _)

end Assembled

end HackPlatform.Asm
