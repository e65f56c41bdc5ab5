import Mathlib.Data.Finset.Card
import Mathlib.Data.List.Pairwise
import Mathlib.Order.Lattice

/-!
# Ordered maps

A finite map with keys in a linear order, kept as its list of entries in ascending key order: the
meaning of a balanced search tree, without the balancing. Strict ascent is a field, so each key
occurs once and the first and last entries are the least and the greatest key.

Two descriptions are kept in step. `entries` is what iteration sees; `find?` is what lookup sees.
The update laws (`find?_insert`, `find?_erase`) are stated for `find?`, and `mem_entries_iff`
carries them to the entries, so a consumer never inducts over the list itself. The number of entries
is the number of keys, so an update changes it by what it does to the set of keys (`size_insert`,
`size_erase_add`).

## Extensionality and the sides of a map

`ext_find?` reduces equality of maps to equality of lookups: two strictly ascending lists with the
same members are the same list. This is how two updates are shown to commute, or a map to be rebuilt
from its entries, without looking at positions.

The least and the greatest entry have one characterization each (`first?_eq_some_iff`,
`last?_eq_some_iff`), an entry that no key is below, or above. What an update does to them follows
from its effect on lookups; there is no case analysis over where in the list it happened.
-/

/-- A finite map, as its entries in strictly ascending key order. -/
structure OrderedMap (K V : Type*) [LinearOrder K] where
  /-- The entries, ascending. -/
  entries : List (K × V)
  /-- Keys ascend strictly. -/
  ascending : entries.Pairwise fun a b ↦ a.1 < b.1

namespace OrderedMap

variable {K V : Type*} [LinearOrder K]

instance [DecidableEq V] : DecidableEq (OrderedMap K V) := fun m n ↦
  decidable_of_iff (m.entries = n.entries)
    ⟨fun h ↦ by cases m; cases n; cases h; rfl, fun h ↦ h ▸ rfl⟩

/-! ### Operations on ascending entry lists -/

/-- Set the value of a key, keeping the entries ascending. -/
def insertEntry (k : K) (v : V) : List (K × V) → List (K × V)
  | [] => [(k, v)]
  | (k', v') :: rest =>
    if k < k' then (k, v) :: (k', v') :: rest
    else if k = k' then (k, v) :: rest
    else (k', v') :: insertEntry k v rest

theorem mem_insertEntry {k : K} {v : V} {l : List (K × V)} {e : K × V}
    (h : e ∈ insertEntry k v l) : e = (k, v) ∨ e ∈ l := by
  induction l with
  | nil => exact Or.inl (List.mem_singleton.1 h)
  | cons a rest ih =>
    obtain ⟨k', v'⟩ := a
    rw [insertEntry] at h
    split_ifs at h with hlt heq
    · exact List.mem_cons.1 h
    · exact (List.mem_cons.1 h).imp id (List.mem_cons_of_mem _)
    · rcases List.mem_cons.1 h with h | h
      · exact Or.inr (h ▸ List.mem_cons_self)
      · exact (ih h).imp id (List.mem_cons_of_mem _)

theorem pairwise_insertEntry (k : K) (v : V) {l : List (K × V)}
    (hl : l.Pairwise fun a b ↦ a.1 < b.1) :
    (insertEntry k v l).Pairwise fun a b ↦ a.1 < b.1 := by
  induction l with
  | nil => exact List.pairwise_singleton _ _
  | cons a rest ih =>
    obtain ⟨k', v'⟩ := a
    have hhead := (List.pairwise_cons.1 hl).1
    rw [insertEntry]
    split_ifs with hlt heq
    · refine List.Pairwise.cons (fun e he ↦ ?_) hl
      rcases List.mem_cons.1 he with rfl | he
      · exact hlt
      · exact hlt.trans (hhead e he)
    · exact List.Pairwise.cons (fun e he ↦ heq ▸ hhead e he) hl.of_cons
    · refine List.Pairwise.cons (fun e he ↦ ?_) (ih hl.of_cons)
      rcases mem_insertEntry he with rfl | he
      · exact lt_of_le_of_ne (not_lt.1 hlt) (Ne.symm heq)
      · exact hhead e he

/-! ### The map and its operations -/

/-- The empty map. -/
def empty : OrderedMap K V := ⟨[], List.Pairwise.nil⟩

/-- Set the value of a key. -/
def insert (m : OrderedMap K V) (k : K) (v : V) : OrderedMap K V :=
  ⟨insertEntry k v m.entries, pairwise_insertEntry k v m.ascending⟩

/-- Remove a key. -/
def erase (m : OrderedMap K V) (k : K) : OrderedMap K V :=
  ⟨m.entries.filter fun e ↦ decide (e.1 ≠ k), m.ascending.filter _⟩

/-- The value of a key. -/
def find? (m : OrderedMap K V) (k : K) : Option V :=
  (m.entries.find? fun e ↦ decide (e.1 = k)).map Prod.snd

/-- The number of entries. -/
def size (m : OrderedMap K V) : ℕ := m.entries.length

/-- The entry of the least key. -/
def first? (m : OrderedMap K V) : Option (K × V) := m.entries.head?

/-- The entry of the greatest key. -/
def last? (m : OrderedMap K V) : Option (K × V) := m.entries.getLast?

/-! ### Lookup and membership -/

/-- A key has one value. -/
theorem eq_of_mem_entries {m : OrderedMap K V} {k : K} {v w : V} (hv : (k, v) ∈ m.entries)
    (hw : (k, w) ∈ m.entries) : v = w := by
  by_contra hne
  have hpair : (k, v) ≠ (k, w) := fun h ↦ hne (Prod.mk.inj h).2
  have hkeys : m.entries.Pairwise fun a b ↦ a.1 ≠ b.1 := m.ascending.imp ne_of_lt
  have : Std.Symm fun a b : K × V ↦ a.1 ≠ b.1 := ⟨fun _ _ h ↦ h.symm⟩
  exact hkeys.forall hv hw hpair rfl

/-- **Lookup reads the entries.** -/
theorem mem_entries_iff {m : OrderedMap K V} {k : K} {v : V} :
    (k, v) ∈ m.entries ↔ m.find? k = some v := by
  rw [find?, Option.map_eq_some_iff]
  constructor
  · intro h
    rcases hf : m.entries.find? fun e ↦ decide (e.1 = k) with - | e
    · exact absurd (List.find?_eq_none.1 hf _ h) (by simp)
    · have hk : e.1 = k := by simpa using List.find?_some hf
      have hmem : (k, e.2) ∈ m.entries := hk ▸ List.mem_of_find?_eq_some hf
      exact ⟨e, hf, eq_of_mem_entries hmem h⟩
  · rintro ⟨e, hf, rfl⟩
    have hk : e.1 = k := by simpa using List.find?_some hf
    rw [← hk]
    exact List.mem_of_find?_eq_some hf

/-- **Lookup determines the map.** -/
theorem ext_find? {m n : OrderedMap K V} (h : ∀ k, m.find? k = n.find? k) : m = n := by
  have hmem : ∀ e, e ∈ m.entries ↔ e ∈ n.entries := by
    rintro ⟨k, v⟩
    rw [mem_entries_iff, mem_entries_iff, h]
  have hnodup : ∀ o : OrderedMap K V, o.entries.Nodup := fun o ↦
    o.ascending.imp fun hlt ↦ fun heq ↦ lt_irrefl _ (heq ▸ hlt)
  have hperm := (List.perm_ext_iff_of_nodup (hnodup m) (hnodup n)).2 hmem
  have hentries : m.entries = n.entries :=
    hperm.eq_of_pairwise (fun a b _ _ hab hba ↦ absurd hba hab.asymm) m.ascending n.ascending
  cases m
  cases n
  cases hentries
  rfl

/-! ### Update laws -/

private theorem find?_insertEntry (k j : K) (v : V) {l : List (K × V)} :
    ((insertEntry k v l).find? fun e ↦ decide (e.1 = j)).map Prod.snd =
      if j = k then some v else (l.find? fun e ↦ decide (e.1 = j)).map Prod.snd := by
  induction l with
  | nil =>
    by_cases h : j = k
    · simp [insertEntry, h]
    · simp [insertEntry, h, Ne.symm h]
  | cons a rest ih =>
    obtain ⟨k', v'⟩ := a
    rw [insertEntry]
    split_ifs with hlt heq hjk hjk
    all_goals simp_all [List.find?_cons]
    all_goals grind

/-- **Insertion sets its key and no other.** -/
theorem find?_insert (m : OrderedMap K V) (k j : K) (v : V) :
    (m.insert k v).find? j = if j = k then some v else m.find? j :=
  find?_insertEntry k j v

/-- **Erasure unsets its key and no other.** -/
theorem find?_erase (m : OrderedMap K V) (k j : K) :
    (m.erase k).find? j = if j = k then none else m.find? j := by
  have hmem : ∀ v, (m.erase k).find? j = some v ↔ j ≠ k ∧ m.find? j = some v := by
    intro v
    rw [← mem_entries_iff, ← mem_entries_iff, erase, List.mem_filter]
    simp [and_comm]
  split_ifs with h
  · exact Option.eq_none_iff_forall_not_mem.2 fun v hv ↦ ((hmem v).1 hv).1 h
  · exact Option.ext fun v ↦ ⟨fun hv ↦ ((hmem v).1 hv).2, fun hv ↦ (hmem v).2 ⟨h, hv⟩⟩

theorem mem_insert_iff {m : OrderedMap K V} {k j : K} {v w : V} :
    (j, w) ∈ (m.insert k v).entries ↔ (j = k ∧ w = v) ∨ (j ≠ k ∧ (j, w) ∈ m.entries) := by
  rw [mem_entries_iff, find?_insert, mem_entries_iff]
  split_ifs with h
  · simp [h, eq_comm]
  · simp [h]

theorem mem_erase_iff {m : OrderedMap K V} {k j : K} {w : V} :
    (j, w) ∈ (m.erase k).entries ↔ j ≠ k ∧ (j, w) ∈ m.entries := by
  rw [mem_entries_iff, find?_erase, mem_entries_iff]
  split_ifs with h
  · simp [h]
  · simp [h]

/-- **A map that loses its last entry to an erasure held that entry alone.** -/
theorem entries_erase_eq_nil_iff {m : OrderedMap K V} {k : K} :
    (m.erase k).entries = [] ↔ m.entries = [] ∨ m.entries.map Prod.fst = [k] := by
  obtain ⟨l, hl⟩ := m
  show l.filter _ = [] ↔ _
  rw [List.filter_eq_nil_iff]
  match l, hl with
  | [], _ => simp
  | [e], _ => simp
  | e :: f :: rest, hl =>
    have hlt : e.1 < f.1 := (List.pairwise_cons.1 hl).1 f List.mem_cons_self
    refine ⟨fun h ↦ ?_, fun h ↦ by simp at h⟩
    have he : e.1 = k := by simpa using h e List.mem_cons_self
    have hf : f.1 = k := by simpa using h f (List.mem_cons_of_mem _ List.mem_cons_self)
    rw [he, hf] at hlt
    exact absurd hlt (lt_irrefl k)

/-! ### The number of entries -/

/-- The set of keys. -/
def keys (m : OrderedMap K V) : Finset K := (m.entries.map Prod.fst).toFinset

theorem mem_keys_iff {m : OrderedMap K V} {k : K} : k ∈ m.keys ↔ (m.find? k).isSome = true := by
  rw [keys, List.mem_toFinset, List.mem_map, Option.isSome_iff_exists]
  constructor
  · rintro ⟨⟨j, v⟩, hmem, rfl⟩
    exact ⟨v, mem_entries_iff.1 hmem⟩
  · rintro ⟨v, hv⟩
    exact ⟨(k, v), mem_entries_iff.2 hv, rfl⟩

/-- **A map has as many entries as keys.** -/
theorem card_keys (m : OrderedMap K V) : m.keys.card = m.size := by
  have hnodup : (m.entries.map Prod.fst).Nodup :=
    List.pairwise_map.2 (m.ascending.imp fun hlt ↦ ne_of_lt hlt)
  rw [keys, List.toFinset_card_of_nodup hnodup, List.length_map]
  rfl

theorem keys_insert (m : OrderedMap K V) (k : K) (v : V) :
    (m.insert k v).keys = Insert.insert k m.keys := by
  ext j
  rw [Finset.mem_insert, mem_keys_iff, mem_keys_iff, find?_insert]
  split_ifs with h
  · simp [h]
  · simp [h]

theorem keys_erase (m : OrderedMap K V) (k : K) : (m.erase k).keys = m.keys.erase k := by
  ext j
  rw [Finset.mem_erase, mem_keys_iff, mem_keys_iff, find?_erase]
  split_ifs with h
  · simp [h]
  · simp [h]

/-- **An insertion adds an entry exactly when the key is new.** -/
theorem size_insert (m : OrderedMap K V) (k : K) (v : V) :
    (m.insert k v).size = m.size + if (m.find? k).isSome then 0 else 1 := by
  rw [← card_keys, ← card_keys, keys_insert, Finset.card_insert_eq_ite]
  simp only [mem_keys_iff]
  split_ifs <;> rfl

/-- **An erasure takes an entry away exactly when the key is there.** -/
theorem size_erase_add (m : OrderedMap K V) (k : K) :
    (m.erase k).size + (if (m.find? k).isSome then 1 else 0) = m.size := by
  rw [← card_keys, ← card_keys, keys_erase]
  split_ifs with h
  · exact Finset.card_erase_add_one (mem_keys_iff.2 h)
  · rw [Finset.erase_eq_of_notMem (mt mem_keys_iff.1 h), Nat.add_zero]

/-! ### The least and the greatest key -/

theorem first?_eq_none_iff {m : OrderedMap K V} : m.first? = none ↔ m.entries = [] :=
  List.head?_eq_none_iff

theorem last?_eq_none_iff {m : OrderedMap K V} : m.last? = none ↔ m.entries = [] :=
  List.getLast?_eq_none_iff

theorem exists_first?_eq_some {m : OrderedMap K V} (h : m.entries ≠ []) :
    ∃ e, m.first? = some e :=
  Option.ne_none_iff_exists'.1 fun hnone ↦ h (first?_eq_none_iff.1 hnone)

theorem exists_last?_eq_some {m : OrderedMap K V} (h : m.entries ≠ []) : ∃ e, m.last? = some e :=
  Option.ne_none_iff_exists'.1 fun hnone ↦ h (last?_eq_none_iff.1 hnone)

/-- **The first entry has the least key.** -/
theorem first?_eq_some_iff {m : OrderedMap K V} {e : K × V} :
    m.first? = some e ↔ e ∈ m.entries ∧ ∀ f ∈ m.entries, e.1 ≤ f.1 := by
  obtain ⟨l, hl⟩ := m
  cases l with
  | nil => simp [first?]
  | cons a rest =>
    have hhead := (List.pairwise_cons.1 hl).1
    show some a = some e ↔ e ∈ a :: rest ∧ ∀ f ∈ a :: rest, e.1 ≤ f.1
    rw [Option.some.injEq]
    constructor
    · rintro rfl
      refine ⟨List.mem_cons_self, fun f hf ↦ ?_⟩
      rcases List.mem_cons.1 hf with rfl | hf
      · exact le_rfl
      · exact (hhead f hf).le
    · rintro ⟨hmem, hle⟩
      rcases List.mem_cons.1 hmem with rfl | hmem
      · rfl
      · exact absurd (hle a List.mem_cons_self) (not_le.2 (hhead e hmem))

/-- **The last entry has the greatest key.** -/
theorem last?_eq_some_iff {m : OrderedMap K V} {e : K × V} :
    m.last? = some e ↔ e ∈ m.entries ∧ ∀ f ∈ m.entries, f.1 ≤ e.1 := by
  obtain ⟨l, hl⟩ := m
  rcases List.eq_nil_or_concat l with rfl | ⟨front, a, rfl⟩
  · simp [last?]
  · simp only [List.concat_eq_append]
    rw [List.concat_eq_append] at hl
    have hlast : ∀ f ∈ front, f.1 < a.1 := fun f hf ↦
      (List.pairwise_append.1 hl).2.2 f hf a List.mem_cons_self
    show (front ++ [a]).getLast? = some e ↔ e ∈ front ++ [a] ∧ ∀ f ∈ front ++ [a], f.1 ≤ e.1
    rw [List.getLast?_concat, Option.some.injEq]
    constructor
    · rintro rfl
      refine ⟨List.mem_append_right _ List.mem_cons_self, fun f hf ↦ ?_⟩
      rcases List.mem_append.1 hf with hf | hf
      · exact (hlast f hf).le
      · rw [List.mem_singleton.1 hf]
    · rintro ⟨hmem, hle⟩
      rcases List.mem_append.1 hmem with hmem | hmem
      · exact absurd (hle a (List.mem_append_right _ List.mem_cons_self)) (not_le.2 (hlast e hmem))
      · exact (List.mem_singleton.1 hmem).symm

end OrderedMap
