/-!
# Tables in insertion order

A table holds one value per key and lists its keys in the order in which they first arrived. A key
that is written again keeps its place.
-/
namespace DependencyRanking

def putEntry {κ ν : Type} [DecidableEq κ] (k : κ) (v : ν) : List (κ × ν) → List (κ × ν)
  | [] => [(k, v)]
  | (j, w) :: rest => if j = k then (j, v) :: rest else (j, w) :: putEntry k v rest

def entryAt? {κ ν : Type} [DecidableEq κ] (k : κ) : List (κ × ν) → Option ν
  | [] => none
  | (j, w) :: rest => if j = k then some w else entryAt? k rest

/-- Entries with distinct keys, in insertion order. -/
structure Table (κ ν : Type) where
  entries : List (κ × ν)
  nodup : (entries.map Prod.fst).Nodup

namespace Table

variable {κ ν μ : Type}

def empty : Table κ ν := ⟨[], List.nodup_nil⟩

instance : EmptyCollection (Table κ ν) := ⟨empty⟩

instance : Inhabited (Table κ ν) := ⟨empty⟩

def keys (t : Table κ ν) : List κ := t.entries.map Prod.fst

def values (t : Table κ ν) : List ν := t.entries.map Prod.snd

def size (t : Table κ ν) : Nat := t.entries.length

theorem nodup_keys (t : Table κ ν) : t.keys.Nodup := t.nodup

def mapValues (f : κ → ν → μ) (t : Table κ ν) : Table κ μ where
  entries := t.entries.map fun e => (e.1, f e.1 e.2)
  nodup := by simpa [List.map_map, Function.comp_def] using t.nodup

@[simp] theorem keys_mapValues (f : κ → ν → μ) (t : Table κ ν) : (t.mapValues f).keys = t.keys := by
  simp [keys, mapValues, Function.comp_def]

@[simp] theorem size_mapValues (f : κ → ν → μ) (t : Table κ ν) : (t.mapValues f).size = t.size :=
  List.length_map _

def ofKeys (ks : List κ) (h : ks.Nodup) (f : κ → ν) : Table κ ν where
  entries := ks.map fun k => (k, f k)
  nodup := by simpa [List.map_map, Function.comp_def] using h

@[simp] theorem keys_ofKeys (ks : List κ) (h : ks.Nodup) (f : κ → ν) :
    (ofKeys ks h f).keys = ks := by
  simp [keys, ofKeys, Function.comp_def]

variable [DecidableEq κ]

theorem map_fst_putEntry (k : κ) (v : ν) (es : List (κ × ν)) :
    (putEntry k v es).map Prod.fst =
      if k ∈ es.map Prod.fst then es.map Prod.fst else es.map Prod.fst ++ [k] := by
  induction es with
  | nil => rfl
  | cons e rest ih =>
    obtain ⟨j, w⟩ := e
    by_cases h : j = k
    · simp [putEntry, h]
    · by_cases hk : k ∈ rest.map Prod.fst <;>
        simp_all [putEntry, Ne.symm h]

def get? (t : Table κ ν) (k : κ) : Option ν := entryAt? k t.entries

def getD (t : Table κ ν) (k : κ) (d : ν) : ν := (t.get? k).getD d

def contains (t : Table κ ν) (k : κ) : Bool := (t.get? k).isSome

def insert (t : Table κ ν) (k : κ) (v : ν) : Table κ ν where
  entries := putEntry k v t.entries
  nodup := by
    rw [map_fst_putEntry]
    split
    · exact t.nodup
    · rename_i h
      exact List.nodup_append.2 ⟨t.nodup, by simp, by
        intro a ha b hb
        simp only [List.mem_singleton] at hb
        exact fun e => h (hb ▸ e ▸ ha)⟩

def insertNew (t : Table κ ν) (k : κ) (v : ν) : Table κ ν :=
  if t.contains k then t else t.insert k v

/-- Writes all pairs in turn, so that the last value of a key counts, at the place of the first. -/
def insertAll (t : Table κ ν) (pairs : List (κ × ν)) : Table κ ν :=
  pairs.foldl (fun t p => t.insert p.1 p.2) t

def ofPairs (pairs : List (κ × ν)) : Table κ ν := (∅ : Table κ ν).insertAll pairs

def sameEntries [BEq ν] (s t : Table κ ν) : Bool :=
  s.size == t.size && s.entries.all fun e => t.get? e.1 == some e.2

theorem keys_insert (t : Table κ ν) (k : κ) (v : ν) :
    (t.insert k v).keys = if k ∈ t.keys then t.keys else t.keys ++ [k] :=
  map_fst_putEntry k v t.entries

theorem entryAt?_putEntry (k j : κ) (v : ν) (es : List (κ × ν)) :
    entryAt? j (putEntry k v es) = if j = k then some v else entryAt? j es := by
  induction es with
  | nil => by_cases h : j = k <;> simp [putEntry, entryAt?, h, Ne.symm]
  | cons e rest ih =>
    obtain ⟨i, w⟩ := e
    by_cases hi : i = k
    · subst hi
      by_cases h : i = j
      · simp [putEntry, entryAt?, h]
      · simp [putEntry, entryAt?, h, Ne.symm h]
    · by_cases hj : i = j
      · subst hj
        simp [putEntry, entryAt?, hi]
      · simp [putEntry, entryAt?, hi, hj, ih]

@[simp] theorem get?_insert (t : Table κ ν) (k j : κ) (v : ν) :
    (t.insert k v).get? j = if j = k then some v else t.get? j :=
  entryAt?_putEntry k j v t.entries

@[simp] theorem get?_empty (k : κ) : (∅ : Table κ ν).get? k = none := rfl

theorem getD_insert (t : Table κ ν) (k j : κ) (v d : ν) :
    (t.insert k v).getD j d = if j = k then v else t.getD j d := by
  unfold getD
  rw [get?_insert]
  split <;> rfl

theorem contains_insert (t : Table κ ν) (k j : κ) (v : ν) :
    (t.insert k v).contains j = (decide (j = k) || t.contains j) := by
  by_cases h : j = k <;> simp [contains, h]

theorem get?_insertAll_const (t : Table κ ν) (ks : List κ) (v : ν) (k : κ) :
    (t.insertAll (ks.map (·, v))).get? k = if k ∈ ks then some v else t.get? k := by
  induction ks generalizing t with
  | nil => rfl
  | cons j rest ih =>
    change ((t.insert j v).insertAll (rest.map (·, v))).get? k = _
    rw [ih, get?_insert]
    by_cases hr : k ∈ rest
    · rw [if_pos hr, if_pos (List.mem_cons_of_mem j hr)]
    · by_cases hj : k = j <;> simp [hr, hj]

theorem entryAt?_isSome_iff (k : κ) (es : List (κ × ν)) :
    (entryAt? k es).isSome ↔ k ∈ es.map Prod.fst := by
  induction es with
  | nil => simp [entryAt?]
  | cons e rest ih =>
    obtain ⟨j, w⟩ := e
    by_cases h : j = k
    · simp [entryAt?, h]
    · simp only [entryAt?, h, if_false, ih, List.map_cons, List.mem_cons]
      exact ⟨Or.inr, fun m => m.resolve_left (Ne.symm h)⟩

theorem entryAt?_eq_none_iff {k : κ} {es : List (κ × ν)} :
    entryAt? k es = none ↔ k ∉ es.map Prod.fst := by
  rw [← Option.not_isSome_iff_eq_none, entryAt?_isSome_iff]

theorem contains_iff (t : Table κ ν) (k : κ) : t.contains k = true ↔ k ∈ t.keys :=
  entryAt?_isSome_iff k t.entries

theorem contains_insertNew (t : Table κ ν) (k j : κ) (v : ν) :
    (t.insertNew k v).contains j = (decide (j = k) || t.contains j) := by
  unfold insertNew
  split
  · rename_i h
    by_cases hj : j = k <;> simp_all
  · exact contains_insert t k j v

theorem getD_insertNew (t : Table κ ν) (k j : κ) (d : ν) :
    (t.insertNew k d).getD j d = t.getD j d := by
  unfold insertNew
  split
  · rfl
  · rename_i h
    rw [getD_insert]
    split
    · rename_i hj
      subst hj
      have hn : t.get? j = none := by simpa [contains] using h
      simp [getD, hn]
    · rfl

theorem mem_entries_iff (t : Table κ ν) (k : κ) (v : ν) :
    (k, v) ∈ t.entries ↔ t.get? k = some v := by
  obtain ⟨es, hn⟩ := t
  simp only [get?]
  induction es with
  | nil => simp [entryAt?]
  | cons e rest ih =>
    obtain ⟨j, w⟩ := e
    simp only [List.map_cons, List.nodup_cons] at hn
    by_cases h : j = k
    · subst h
      have hr : (j, v) ∉ rest := fun hm => hn.1 (List.mem_map.2 ⟨_, hm, rfl⟩)
      simp [entryAt?, hr, eq_comm]
    · simp [entryAt?, h, Ne.symm h, ih hn.2]

theorem entryAt?_eq_some_iff {es : List (κ × ν)} (h : (es.map Prod.fst).Nodup) {k : κ} {v : ν} :
    entryAt? k es = some v ↔ (k, v) ∈ es :=
  (mem_entries_iff ⟨es, h⟩ k v).symm

theorem mem_values_of_get? {t : Table κ ν} {k : κ} {v : ν} (h : t.get? k = some v) : v ∈ t.values :=
  List.mem_map_of_mem ((t.mem_entries_iff k v).2 h)

theorem get?_ofKeys (ks : List κ) (h : ks.Nodup) (f : κ → ν) (k : κ) :
    (ofKeys ks h f).get? k = if k ∈ ks then some (f k) else none := by
  unfold ofKeys get?
  dsimp only
  clear h
  induction ks with
  | nil => rfl
  | cons j rest ih =>
    by_cases hj : j = k
    · simp [entryAt?, hj]
    · simp [entryAt?, hj, Ne.symm hj, ih]

theorem get?_mapValues (f : κ → ν → μ) (t : Table κ ν) (k : κ) :
    (t.mapValues f).get? k = (t.get? k).map (f k) := by
  obtain ⟨es, hn⟩ := t
  simp only [get?, mapValues]
  clear hn
  induction es with
  | nil => rfl
  | cons e rest ih =>
    obtain ⟨j, w⟩ := e
    by_cases h : j = k
    · subst h
      simp [entryAt?]
    · simp [entryAt?, h, ih]

theorem getD_mapValues (f : κ → ν → μ) (t : Table κ ν) (k : κ) (d : ν) :
    (t.mapValues f).getD k (f k d) = f k (t.getD k d) := by
  unfold getD
  rw [get?_mapValues, Option.getD_map]

theorem contains_mapValues (f : κ → ν → μ) (t : Table κ ν) :
    (t.mapValues f).contains = t.contains := by
  funext k
  unfold contains
  rw [get?_mapValues, Option.isSome_map]

end Table

end DependencyRanking
