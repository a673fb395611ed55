/-
# SymbolAtlas.Table -- a finite map that remembers the order of its keys

A `Table κ ν` is a list of pairs with one entry per key.  A key keeps the place
at which it was first written, whatever is written to it later, so the table is
at once a map (`get?`) and the list of its keys in creation order (`keys`).
Every cache of the library whose order can be seen from outside is a table.

`get?_insert` says what a write does to a later read, and `keys_insert` what it
does to the order; `get?_modify` says what a change does.  `mem_entries_iff`
joins the two sides: the entries are exactly what can be read.
-/
set_option autoImplicit false

namespace SymbolAtlas

/-- A finite map whose keys stand in the order in which they were first written. -/
@[ext] structure Table (κ : Type) (ν : Type) where
  entries : List (κ × ν)
  /-- No key is written twice. -/
  distinct : (entries.map Prod.fst).Nodup

namespace Table

variable {κ ν : Type} [DecidableEq κ]

/-- The table without entries. -/
def empty : Table κ ν := ⟨[], List.nodup_nil⟩

instance : Inhabited (Table κ ν) := ⟨empty⟩

/-- The value of `key` in a list of pairs: the first one counts. -/
def find? : List (κ × ν) → κ → Option ν
  | [], _ => none
  | (k, v) :: rest, key => if k = key then some v else find? rest key

/-- Overwrite the entry of `key` where it stands, or append it. -/
def put : List (κ × ν) → κ → ν → List (κ × ν)
  | [], key, value => [(key, value)]
  | (k, v) :: rest, key, value =>
      if k = key then (key, value) :: rest else (k, v) :: put rest key value

/-- The value stored for `key`. -/
def get? (t : Table κ ν) (key : κ) : Option ν := find? t.entries key

/-- Whether `key` has a value. -/
def contains (t : Table κ ν) (key : κ) : Bool := (t.get? key).isSome

theorem keys_put (entries : List (κ × ν)) (key : κ) (value : ν) :
    (put entries key value).map Prod.fst =
      if key ∈ entries.map Prod.fst then entries.map Prod.fst
      else entries.map Prod.fst ++ [key] := by
  induction entries with
  | nil => simp [put]
  | cons entry rest ih =>
      obtain ⟨k, v⟩ := entry
      by_cases hk : k = key
      · subst hk; simp [put]
      · by_cases hm : key ∈ rest.map Prod.fst <;>
          simp_all [put, Ne.symm hk]

theorem distinct_put {entries : List (κ × ν)} (distinct : (entries.map Prod.fst).Nodup)
    (key : κ) (value : ν) : ((put entries key value).map Prod.fst).Nodup := by
  rw [keys_put]
  split
  · exact distinct
  · rename_i absent
    refine List.nodup_append.2 ⟨distinct, by simp, fun k member other here => ?_⟩
    rintro rfl
    exact absent (List.mem_singleton.1 here ▸ member)

/-- Write `value` at `key`; a new key goes to the end. -/
def insert (t : Table κ ν) (key : κ) (value : ν) : Table κ ν :=
  ⟨put t.entries key value, distinct_put t.distinct key value⟩

/-- Write `value` at `key` unless the key has a value already. -/
def insertIfNew (t : Table κ ν) (key : κ) (value : ν) : Table κ ν :=
  if t.contains key then t else t.insert key value

/-- Apply `f` to the value at `key`, if there is one. -/
def modify (t : Table κ ν) (key : κ) (f : ν → ν) : Table κ ν :=
  match t.get? key with
  | some value => t.insert key (f value)
  | none => t

/-- Keep the entries that pass a test. -/
def filter (t : Table κ ν) (keep : κ × ν → Bool) : Table κ ν :=
  ⟨t.entries.filter keep, t.distinct.sublist (List.filter_sublist.map _)⟩

/-- Forget `key`. -/
def erase (t : Table κ ν) (key : κ) : Table κ ν := t.filter fun entry => entry.1 ≠ key

/-- Change every value. -/
def mapValues {ν' : Type} (t : Table κ ν) (f : ν → ν') : Table κ ν' :=
  ⟨t.entries.map fun entry => (entry.1, f entry.2),
    by simpa [Function.comp_def] using t.distinct⟩

/-- The keys in the order in which they were first written. -/
def keys (t : Table κ ν) : List κ := t.entries.map Prod.fst

/-- The values in the order of their keys. -/
def values (t : Table κ ν) : List ν := t.entries.map Prod.snd

/-- The number of keys. -/
def size (t : Table κ ν) : Nat := t.entries.length

/-- Write the pairs one after the other, so that the last value of a key stands. -/
def ofList (pairs : List (κ × ν)) : Table κ ν :=
  pairs.foldl (fun t pair => t.insert pair.1 pair.2) empty

/-! ## What a write does to a read -/

@[simp] theorem get?_empty (key : κ) : (empty : Table κ ν).get? key = none := rfl

theorem find?_put (entries : List (κ × ν)) (key other : κ) (value : ν) :
    find? (put entries key value) other =
      if key = other then some value else find? entries other := by
  induction entries with
  | nil => simp [put, find?]
  | cons entry rest ih =>
      obtain ⟨k, v⟩ := entry
      by_cases hk : k = key
      · subst hk
        by_cases ho : k = other <;> simp [put, find?, ho]
      · by_cases ho : k = other
        · subst ho
          simp [put, find?, hk, Ne.symm hk]
        · simp [put, find?, hk, ho, ih]

theorem get?_insert (t : Table κ ν) (key other : κ) (value : ν) :
    (t.insert key value).get? other = if key = other then some value else t.get? other :=
  find?_put t.entries key other value

@[simp] theorem get?_insert_self (t : Table κ ν) (key : κ) (value : ν) :
    (t.insert key value).get? key = some value := by
  simp [get?_insert]

/-- A write keeps the order of the keys and appends a new one. -/
theorem keys_insert (t : Table κ ν) (key : κ) (value : ν) :
    (t.insert key value).keys = if key ∈ t.keys then t.keys else t.keys ++ [key] :=
  keys_put t.entries key value

/-! ## Changing all values -/

theorem find?_map {ν' : Type} (entries : List (κ × ν)) (f : ν → ν') (key : κ) :
    find? (entries.map fun entry => (entry.1, f entry.2)) key = (find? entries key).map f := by
  induction entries with
  | nil => rfl
  | cons entry rest ih =>
      obtain ⟨k, v⟩ := entry
      by_cases hk : k = key <;> simp [find?, hk, ih]

@[simp] theorem get?_mapValues {ν' : Type} (t : Table κ ν) (f : ν → ν') (key : κ) :
    (t.mapValues f).get? key = (t.get? key).map f :=
  find?_map t.entries f key

theorem map_put {ν' : Type} (entries : List (κ × ν)) (f : ν → ν') (key : κ) (value : ν) :
    (put entries key value).map (fun entry => (entry.1, f entry.2)) =
      put (entries.map fun entry => (entry.1, f entry.2)) key (f value) := by
  induction entries with
  | nil => rfl
  | cons entry rest ih =>
      obtain ⟨k, v⟩ := entry
      by_cases hk : k = key <;> simp [put, hk, ih]

theorem mapValues_insert {ν' : Type} (t : Table κ ν) (f : ν → ν') (key : κ) (value : ν) :
    (t.insert key value).mapValues f = (t.mapValues f).insert key (f value) :=
  Table.ext (map_put t.entries f key value)

/-! ## Changing one value -/

theorem get?_modify (t : Table κ ν) (key other : κ) (f : ν → ν) :
    (t.modify key f).get? other = if key = other then (t.get? other).map f else t.get? other := by
  unfold modify
  by_cases same : key = other
  · subst same
    cases h : t.get? key <;> simp [h]
  · cases h : t.get? key <;> simp [get?_insert, same]

@[simp] theorem get?_modify_self (t : Table κ ν) (key : κ) (f : ν → ν) :
    (t.modify key f).get? key = (t.get? key).map f := by
  simp [get?_modify]

/-- What a change of one value leaves alone is what it was, wherever it is read. -/
theorem map_get?_modify {γ : Type} (t : Table κ ν) (key other : κ) {f : ν → ν} {view : ν → γ}
    (same : ∀ v, view (f v) = view v) :
    ((t.modify key f).get? other).map view = (t.get? other).map view := by
  rw [get?_modify]
  split
  · rw [Option.map_map, show view ∘ f = view from funext same]
  · rfl

theorem put_put (entries : List (κ × ν)) (key : κ) (first second : ν) :
    put (put entries key first) key second = put entries key second := by
  induction entries with
  | nil => simp [put]
  | cons entry rest ih =>
      obtain ⟨k, v⟩ := entry
      by_cases hk : k = key <;> simp [put, hk, ih]

theorem insert_insert (t : Table κ ν) (key : κ) (first second : ν) :
    (t.insert key first).insert key second = t.insert key second :=
  Table.ext (put_put t.entries key first second)

/-- A change of what was just written is written in its place. -/
@[simp] theorem modify_insert (t : Table κ ν) (key : κ) (value : ν) (f : ν → ν) :
    (t.insert key value).modify key f = t.insert key (f value) := by
  simp [modify, insert_insert]

theorem modify_modify (t : Table κ ν) (key : κ) (f g : ν → ν) :
    (t.modify key f).modify key g = t.modify key (g ∘ f) := by
  cases h : t.get? key with
  | none => simp [modify, h]
  | some value => simp [modify, h, insert_insert]

/-- Something holds of every key and its value. -/
def All (t : Table κ ν) (P : κ → ν → Prop) : Prop := ∀ k v, t.get? k = some v → P k v

@[simp] theorem all_empty (P : κ → ν → Prop) : (empty : Table κ ν).All P :=
  fun _ _ here => by simp at here

theorem All.modify {t : Table κ ν} {P : κ → ν → Prop} (h : t.All P) {key : κ} {f : ν → ν}
    (changed : ∀ v, t.get? key = some v → P key v → P key (f v)) : (t.modify key f).All P := by
  intro k v here
  rw [get?_modify] at here
  split at here
  · rename_i same
    subst same
    obtain ⟨old, present, rfl⟩ := Option.map_eq_some_iff.1 here
    exact changed old present (h _ _ present)
  · exact h k v here

theorem All.insert {t : Table κ ν} {P : κ → ν → Prop} (h : t.All P) {key : κ} {value : ν}
    (new : P key value) : (t.insert key value).All P := by
  intro k v here
  rw [get?_insert] at here
  split at here
  · rename_i same
    subst same
    exact Option.some.inj here ▸ new
  · exact h k v here

theorem All.imp {t : Table κ ν} {P Q : κ → ν → Prop} (h : t.All P)
    (weaker : ∀ k v, t.get? k = some v → P k v → Q k v) : t.All Q :=
  fun k v here => weaker k v here (h k v here)

/-- A value stays where it is, changed or not. -/
theorem get?_modify_rel {t : Table κ ν} {R : ν → ν → Prop} (refl : ∀ v, R v v) {key : κ}
    {f : ν → ν} (changed : ∀ v, t.get? key = some v → R v (f v)) {k : κ} {v : ν}
    (here : t.get? k = some v) : ∃ v', (t.modify key f).get? k = some v' ∧ R v v' := by
  by_cases same : key = k
  · subst same
    exact ⟨f v, by simp [here], changed v here⟩
  · exact ⟨v, by simp [get?_modify, same, here], refl v⟩

/-! ## Entries and reads -/

theorem find?_eq_some_iff {entries : List (κ × ν)} (distinct : (entries.map Prod.fst).Nodup)
    {key : κ} {value : ν} : find? entries key = some value ↔ (key, value) ∈ entries := by
  induction entries with
  | nil => simp [find?]
  | cons entry rest ih =>
      obtain ⟨k, v⟩ := entry
      simp only [List.map_cons, List.nodup_cons] at distinct
      by_cases hk : k = key
      · subst hk
        have absent : (k, value) ∉ rest := fun member =>
          distinct.1 (List.mem_map.2 ⟨_, member, rfl⟩)
        simp [find?, absent, eq_comm]
      · simp [find?, hk, Ne.symm hk, ih distinct.2]

/-- The entries are the reads. -/
theorem mem_entries_iff {t : Table κ ν} {key : κ} {value : ν} :
    (key, value) ∈ t.entries ↔ t.get? key = some value :=
  (find?_eq_some_iff t.distinct).symm

/-- What passes the test is still found. -/
theorem get?_filter (t : Table κ ν) (keep : κ × ν → Bool) (key : κ) :
    (t.filter keep).get? key = (t.get? key).filter fun value => keep (key, value) := by
  refine Option.ext fun value => ?_
  rw [← mem_entries_iff, filter, List.mem_filter, mem_entries_iff, Option.filter_eq_some_iff]

theorem get?_erase (t : Table κ ν) (key other : κ) :
    (t.erase key).get? other = if other = key then none else t.get? other := by
  rw [erase, get?_filter]
  by_cases same : other = key
  · simp [same]
  · cases t.get? other <;> simp [same]

theorem All.erase {t : Table κ ν} {P : κ → ν → Prop} (h : t.All P) (key : κ) :
    (t.erase key).All P :=
  fun k v here => h k v (mem_entries_iff.1 (List.mem_filter.1 (mem_entries_iff.2 here)).1)

theorem mem_of_get?_inserted {pairs : List (κ × ν)} {t : Table κ ν} {key : κ} {value : ν}
    (here : (pairs.foldl (fun t pair => t.insert pair.1 pair.2) t).get? key = some value) :
    (key, value) ∈ pairs ∨ t.get? key = some value := by
  induction pairs generalizing t with
  | nil => exact .inr here
  | cons pair pairs ih =>
      rcases ih here with later | early
      · exact .inl (List.mem_cons_of_mem _ later)
      · rw [get?_insert] at early
        split at early
        · rename_i same
          obtain rfl := Option.some.inj early
          exact .inl (same ▸ List.mem_cons_self)
        · exact .inr early

/-- What is found in a table of pairs is one of them. -/
theorem mem_of_get?_ofList {pairs : List (κ × ν)} {key : κ} {value : ν}
    (here : (ofList pairs).get? key = some value) : (key, value) ∈ pairs :=
  (mem_of_get?_inserted here).resolve_right (by simp)

theorem mem_values_iff {t : Table κ ν} {value : ν} :
    value ∈ t.values ↔ ∃ key, t.get? key = some value := by
  simp [values, mem_entries_iff]

theorem mem_keys_iff {t : Table κ ν} {key : κ} : key ∈ t.keys ↔ ∃ value, t.get? key = some value := by
  simp [keys, mem_entries_iff]

theorem contains_iff {t : Table κ ν} {key : κ} :
    t.contains key = true ↔ ∃ value, t.get? key = some value := by
  simp [contains, Option.isSome_iff_exists]

theorem put_of_absent {entries : List (κ × ν)} {key : κ} (absent : find? entries key = none)
    (value : ν) : put entries key value = entries ++ [(key, value)] := by
  induction entries with
  | nil => rfl
  | cons entry rest ih =>
      obtain ⟨k, v⟩ := entry
      by_cases hk : k = key
      · simp [find?, hk] at absent
      · simp only [find?, hk, if_false] at absent
        simp [put, hk, ih absent]

/-- A new key is written behind all others. -/
theorem entries_insert_of_absent {t : Table κ ν} {key : κ} (absent : t.get? key = none)
    (value : ν) : (t.insert key value).entries = t.entries ++ [(key, value)] :=
  put_of_absent absent value

theorem put_of_present {entries : List (κ × ν)} {key : κ} {old : ν}
    (present : find? entries key = some old) (value : ν) :
    ∃ before after, entries = before ++ (key, old) :: after ∧
      put entries key value = before ++ (key, value) :: after := by
  induction entries with
  | nil => simp [find?] at present
  | cons entry rest ih =>
      obtain ⟨k, v⟩ := entry
      by_cases hk : k = key
      · subst hk
        simp only [find?, if_true, Option.some.injEq] at present
        subst present
        exact ⟨[], rest, rfl, by simp [put]⟩
      · simp only [find?, hk, if_false] at present
        obtain ⟨before, after, split, written⟩ := ih present
        exact ⟨(k, v) :: before, after, by simp [split], by simp [put, hk, written]⟩

/-- A key that was written before keeps its place. -/
theorem entries_insert_of_present {t : Table κ ν} {key : κ} {old : ν}
    (present : t.get? key = some old) (value : ν) :
    ∃ before after, t.entries = before ++ (key, old) :: after ∧
      (t.insert key value).entries = before ++ (key, value) :: after :=
  put_of_present present value

theorem values_insert_of_absent {t : Table κ ν} {key : κ} (absent : t.get? key = none)
    (value : ν) : (t.insert key value).values = t.values ++ [value] := by
  simp [values, entries_insert_of_absent absent]

/-- A change adds no key. -/
@[simp] theorem keys_modify (t : Table κ ν) (key : κ) (f : ν → ν) :
    (t.modify key f).keys = t.keys := by
  unfold modify
  cases present : t.get? key with
  | none => rfl
  | some value => exact (keys_insert ..).trans (if_pos (mem_keys_iff.2 ⟨value, present⟩))

/-- A change that a view does not see leaves the view of all values alone. -/
theorem map_values_modify {γ : Type} (t : Table κ ν) (key : κ) (f : ν → ν) (view : ν → γ)
    (unseen : ∀ value, t.get? key = some value → view (f value) = view value) :
    (t.modify key f).values.map view = t.values.map view := by
  unfold modify
  cases present : t.get? key with
  | none => rfl
  | some value =>
      obtain ⟨before, after, split, written⟩ := entries_insert_of_present present (f value)
      simp [values, split, written, unseen value present]

end Table
end SymbolAtlas
