import Mathlib.Data.List.AList

/-! # Finite maps as association lists

Mathlib's `AList` used as a finite map with values of one type (`Assoc α β`).  Added here:

* `lookup_insert_if`, `lookup_erase_if`: lookups after an update, by cases on the key;
* `pairs`: the bindings as a list of pairs, and `restrict q`: the bindings that satisfy `q`. -/

/-- A finite map from `α` to `β`. -/
abbrev Assoc (α β : Type) := AList (fun _ : α => β)

namespace Assoc

variable {α β : Type}

/-- The bindings. -/
def pairs (m : Assoc α β) : List (α × β) := m.entries.map (fun x => (x.1, x.2))

@[simp] theorem pairs_empty : pairs (∅ : Assoc α β) = [] := rfl

theorem map_fst_pairs (m : Assoc α β) : m.pairs.map Prod.fst = m.keys := by
  simp only [pairs, List.map_map, AList.keys, List.keys]
  rfl

theorem nodup_map_fst_pairs (m : Assoc α β) : (m.pairs.map Prod.fst).Nodup := by
  rw [map_fst_pairs]
  exact m.keys_nodup

/-- Keep the bindings that satisfy `q`. -/
def restrict (q : α → β → Bool) (m : Assoc α β) : Assoc α β :=
  ⟨m.entries.filter (fun x => q x.1 x.2), m.nodupKeys.sublist List.filter_sublist⟩

variable [DecidableEq α]

theorem lookup_insert_if (m : Assoc α β) (a a' : α) (b : β) :
    (m.insert a b).lookup a' = if a' = a then some b else m.lookup a' := by
  split
  · next h => subst h; exact AList.lookup_insert m
  · next h => exact AList.lookup_insert_ne h

theorem lookup_erase_if (m : Assoc α β) (a a' : α) :
    (m.erase a).lookup a' = if a' = a then none else m.lookup a' := by
  split
  · next h => subst h; exact AList.lookup_erase a' m
  · next h => exact AList.lookup_erase_ne h

theorem mem_pairs {m : Assoc α β} {a : α} {b : β} : (a, b) ∈ m.pairs ↔ m.lookup a = some b := by
  have h := AList.mem_lookup_iff (a := a) (b := b) (s := m)
  rw [Option.mem_def] at h
  rw [h]
  simp only [pairs, List.mem_map, Prod.mk.injEq]
  constructor
  · rintro ⟨x, hx, rfl, rfl⟩
    exact hx
  · exact fun hx => ⟨⟨a, b⟩, hx, rfl, rfl⟩

@[simp] theorem lookup_restrict (q : α → β → Bool) (m : Assoc α β) (a : α) :
    (m.restrict q).lookup a = (m.lookup a).filter (q a) := by
  ext b
  have h1 := AList.mem_lookup_iff (a := a) (b := b) (s := m.restrict q)
  have h2 := AList.mem_lookup_iff (a := a) (b := b) (s := m)
  rw [Option.mem_def] at h1 h2
  rw [h1, Option.filter_eq_some_iff, h2]
  exact List.mem_filter

end Assoc
