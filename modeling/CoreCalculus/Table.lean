/-
  CoreCalculus/Table.lean
  =======================
  **Finite tables** from keys to values: scopes, replacements, environments and
  the bindings of type variables are all tables.

  A table lists each key once (`nodup`), so walking over its entries sees exactly
  what looking up sees (`get?_eq_some_iff`).  Where an entry stands in the list
  carries no meaning: `agrees` compares two tables by what they hold.
-/

namespace CoreCalculus

structure Table (κ : Type) (α : Type) where
  entries : List (κ × α)
  nodup : (entries.map Prod.fst).Nodup

namespace Table

variable {κ α β : Type}

def empty : Table κ α := ⟨[], by simp⟩

instance : Inhabited (Table κ α) := ⟨empty⟩

def isEmpty (t : Table κ α) : Bool := t.entries.isEmpty

def size (t : Table κ α) : Nat := t.entries.length

def keys (t : Table κ α) : List κ := t.entries.map Prod.fst

def values (t : Table κ α) : List α := t.entries.map Prod.snd

/-- Apply `f` to every value. -/
def map (f : α → β) (t : Table κ α) : Table κ β :=
  ⟨t.entries.map fun e => (e.1, f e.2), by simpa [Function.comp_def] using t.nodup⟩

/-- Keep the entries whose key satisfies `keep`. -/
def restrict (keep : κ → Bool) (t : Table κ α) : Table κ α :=
  ⟨t.entries.filter fun e => keep e.1, t.nodup.sublist (List.filter_sublist.map _)⟩

/-! ### Mapping -/

theorem map_congr {f g : α → β} {t : Table κ α} (h : ∀ a ∈ t.values, f a = g a) :
    t.map f = t.map g := by
  have hentries : (t.entries.map fun e => (e.1, f e.2)) = t.entries.map fun e => (e.1, g e.2) :=
    List.map_congr_left fun e he => by rw [h e.2 (List.mem_map_of_mem he)]
  simp only [map, hentries]

theorem map_map {γ : Type} (g : β → γ) (f : α → β) (t : Table κ α) :
    (t.map f).map g = t.map (g ∘ f) := by
  simp only [map, List.map_map]
  rfl

/-! ### Looking up and binding -/

variable [DecidableEq κ]

/-- What the table holds for a key. -/
def get? (t : Table κ α) (k : κ) : Option α := t.entries.lookup k

def contains (t : Table κ α) (k : κ) : Bool := (t.get? k).isSome

/-- Bind `k`, in place of whatever it was bound to. -/
def insert (t : Table κ α) (k : κ) (a : α) : Table κ α :=
  ⟨(k, a) :: (t.restrict (· ≠ k)).entries, by
    rw [List.map_cons, List.nodup_cons]
    exact ⟨by simp [restrict], (t.restrict _).nodup⟩⟩

/-- Bind the pairs of a list one after another: a later pair of a key wins. -/
def insertAll (t : Table κ α) (pairs : List (κ × α)) : Table κ α :=
  pairs.foldl (fun t e => t.insert e.1 e.2) t

def ofList (pairs : List (κ × α)) : Table κ α := empty.insertAll pairs

/-- Both tables hold the same keys, with values that `eq` relates. -/
def agrees (eq : α → α → Bool) (t u : Table κ α) : Bool :=
  t.size == u.size && t.entries.all fun e =>
    match u.get? e.1 with
    | some b => eq e.2 b
    | none => false

/-! ### What each operation does to a look-up -/

/-- Looking up sees exactly the entries. -/
theorem get?_eq_some_iff {t : Table κ α} {k : κ} {a : α} :
    t.get? k = some a ↔ (k, a) ∈ t.entries := by
  obtain ⟨entries, nodup⟩ := t
  simp only [get?]
  induction entries with
  | nil => simp
  | cons e entries ih =>
    obtain ⟨l, b⟩ := e
    rw [List.map_cons, List.nodup_cons] at nodup
    rw [List.lookup_cons, List.mem_cons]
    by_cases hk : k = l
    · subst hk
      have hmem : (k, a) ∉ entries := fun h => nodup.1 (List.mem_map.2 ⟨_, h, rfl⟩)
      simp [hmem, eq_comm]
    · have hb : (k == l) = false := beq_false_of_ne hk
      simp [hb, hk, ih nodup.2]

theorem get?_eq_none_iff {t : Table κ α} {k : κ} : t.get? k = none ↔ k ∉ t.keys := by
  rw [Option.eq_none_iff_forall_ne_some]
  simp [get?_eq_some_iff, keys]

@[simp] theorem get?_empty (k : κ) : (empty : Table κ α).get? k = none := rfl

@[simp] theorem get?_map (f : α → β) (t : Table κ α) (k : κ) :
    (t.map f).get? k = (t.get? k).map f := by
  simp only [get?, map]
  induction t.entries with
  | nil => rfl
  | cons e entries ih => rw [List.map_cons, List.lookup_cons, List.lookup_cons, ih]; split <;> rfl

@[simp] theorem get?_restrict (keep : κ → Bool) (t : Table κ α) (k : κ) :
    (t.restrict keep).get? k = if keep k then t.get? k else none := by
  simp only [get?, restrict]
  induction t.entries with
  | nil => simp
  | cons e entries ih =>
    obtain ⟨l, b⟩ := e
    rw [List.filter_cons, List.lookup_cons]
    by_cases hk : k = l
    · subst hk
      by_cases hl : keep k <;> simp [hl, ih]
    · have hb : (k == l) = false := beq_false_of_ne hk
      by_cases hl : keep l <;> simp [hl, hb, ih, List.lookup_cons]

theorem get?_insert (t : Table κ α) (k l : κ) (a : α) :
    (t.insert k a).get? l = if l = k then some a else t.get? l := by
  have h : (t.insert k a).get? l = if l == k then some a else (t.restrict (· ≠ k)).get? l := by
    simp only [get?, insert, List.lookup_cons]
    split <;> simp_all
  rw [h, get?_restrict]
  by_cases hl : l = k <;> simp [hl]

theorem get?_insertAll_of_not_mem {t : Table κ α} {pairs : List (κ × α)} {k : κ}
    (h : k ∉ pairs.map Prod.fst) : (t.insertAll pairs).get? k = t.get? k := by
  induction pairs generalizing t with
  | nil => rfl
  | cons e pairs ih =>
    rw [List.map_cons, List.mem_cons, not_or] at h
    have hstep : (t.insertAll (e :: pairs)).get? k = (t.insert e.1 e.2).get? k := ih h.2
    rw [hstep, get?_insert, if_neg h.1]

/-- What was bound before makes no difference to a key that is bound now. -/
theorem get?_insertAll_of_mem (t u : Table κ α) {pairs : List (κ × α)} {k : κ}
    (h : k ∈ pairs.map Prod.fst) : (t.insertAll pairs).get? k = (u.insertAll pairs).get? k := by
  induction pairs generalizing t u with
  | nil => exact absurd h List.not_mem_nil
  | cons e pairs ih =>
    by_cases hk : k ∈ pairs.map Prod.fst
    · exact ih (t.insert e.1 e.2) (u.insert e.1 e.2) hk
    · have hstep : ∀ t : Table κ α, (t.insertAll (e :: pairs)).get? k =
          (t.insert e.1 e.2).get? k := fun t => get?_insertAll_of_not_mem hk
      obtain rfl : k = e.1 := (List.mem_cons.1 h).resolve_right hk
      rw [hstep, hstep, get?_insert, get?_insert, if_pos rfl, if_pos rfl]

theorem mem_of_get?_insertAll {t : Table κ α} {pairs : List (κ × α)} {k : κ} {a : α}
    (h : (t.insertAll pairs).get? k = some a) (hk : k ∈ pairs.map Prod.fst) : (k, a) ∈ pairs := by
  induction pairs generalizing t with
  | nil => exact absurd hk List.not_mem_nil
  | cons e pairs ih =>
    by_cases hmem : k ∈ pairs.map Prod.fst
    · exact List.mem_cons_of_mem _ (ih h hmem)
    · have hstep : (t.insertAll (e :: pairs)).get? k = (t.insert e.1 e.2).get? k :=
        get?_insertAll_of_not_mem hmem
      obtain rfl : k = e.1 := (List.mem_cons.1 hk).resolve_right hmem
      rw [hstep, get?_insert, if_pos rfl] at h
      cases h
      exact List.mem_cons_self

theorem mem_of_get?_ofList {pairs : List (κ × α)} {k : κ} {a : α}
    (h : (ofList pairs).get? k = some a) : (k, a) ∈ pairs := by
  by_cases hk : k ∈ pairs.map Prod.fst
  · exact mem_of_get?_insertAll h hk
  · rw [ofList, get?_insertAll_of_not_mem hk] at h
    cases h

/-! ### Mapping and binding commute -/

theorem map_insert (f : α → β) (t : Table κ α) (k : κ) (a : α) :
    (t.insert k a).map f = (t.map f).insert k (f a) := by
  simp only [map, insert, restrict, List.map_cons, List.filter_map]
  rfl

theorem map_insertAll (f : α → β) (t : Table κ α) (pairs : List (κ × α)) :
    (t.insertAll pairs).map f = (t.map f).insertAll (pairs.map fun e => (e.1, f e.2)) := by
  induction pairs generalizing t with
  | nil => rfl
  | cons e pairs ih =>
    have hstep := ih (t.insert e.1 e.2)
    rw [map_insert] at hstep
    exact hstep

end Table

end CoreCalculus
