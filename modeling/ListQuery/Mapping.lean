set_option autoImplicit false

/-!
Ordered mappings: entries in the order their keys first came, one value per key. A write through
`alter` keeps the position of a key that is there and puts a new key last.
-/

namespace ListQuery

/-- Entries in order. Built through `alter` and `insert`, a mapping holds each key once. -/
abbrev Mapping (α : Type) : Type := List (String × α)

namespace Mapping

variable {α : Type}

def keys (entries : Mapping α) : List String := entries.map Prod.fst

def Distinct (entries : Mapping α) : Prop := (keys entries).Nodup

instance (entries : Mapping α) : Decidable (Distinct entries) :=
  inferInstanceAs (Decidable (keys entries).Nodup)

def get? : Mapping α → String → Option α
  | [], _ => none
  | (name, held) :: rest, key => if name = key then some held else get? rest key

/-- Puts at the key what `update` makes of the value held there. -/
def alter (update : Option α → α) (key : String) : Mapping α → Mapping α
  | [] => [(key, update none)]
  | (name, held) :: rest =>
    if name = key then (name, update (some held)) :: rest
    else (name, held) :: alter update key rest

def insert (entries : Mapping α) (key : String) (value : α) : Mapping α :=
  alter (fun _ => value) key entries

def ofEntries (entries : List (String × α)) : Mapping α :=
  entries.foldl (fun built entry => insert built entry.1 entry.2) []

/-- The entries at other keys. -/
def without (entries : Mapping α) (key : String) : Mapping α :=
  entries.filter fun entry => entry.1 ≠ key

@[simp] theorem keys_nil : keys ([] : Mapping α) = [] := rfl

@[simp] theorem keys_cons (entry : String × α) (rest : Mapping α) :
    keys (entry :: rest) = entry.1 :: keys rest := rfl

theorem keys_append (first second : Mapping α) :
    keys (first ++ second) = keys first ++ keys second := List.map_append ..

theorem keys_map_values {β : Type} (change : α → β) (entries : Mapping α) :
    keys (entries.map fun entry => (entry.1, change entry.2)) = keys entries := by
  rw [keys, keys, List.map_map]
  rfl

@[simp] theorem get?_nil (key : String) : get? ([] : Mapping α) key = none := rfl

theorem get?_cons (name : String) (held : α) (rest : Mapping α) (key : String) :
    get? ((name, held) :: rest) key = if name = key then some held else get? rest key := rfl

theorem get?_eq_none_iff (entries : Mapping α) (key : String) :
    get? entries key = none ↔ key ∉ keys entries := by
  induction entries with
  | nil => simp
  | cons entry rest ih =>
    obtain ⟨name, held⟩ := entry
    by_cases same : name = key
    · simp [get?_cons, same]
    · simp [get?_cons, same, ih, Ne.symm same]

theorem mem_of_get? {entries : Mapping α} {key : String} {held : α}
    (found : get? entries key = some held) : (key, held) ∈ entries := by
  induction entries with
  | nil => cases found
  | cons entry rest ih =>
    obtain ⟨name, first⟩ := entry
    rw [get?_cons] at found
    split at found
    · rename_i same
      obtain rfl := Option.some.inj found
      simp [same]
    · exact List.mem_cons_of_mem _ (ih found)

theorem get?_of_mem {entries : Mapping α} (distinct : Distinct entries) {key : String} {held : α}
    (inside : (key, held) ∈ entries) : get? entries key = some held := by
  induction entries with
  | nil => cases inside
  | cons entry rest ih =>
    obtain ⟨name, first⟩ := entry
    have fresh : name ∉ keys rest := (List.nodup_cons.mp distinct).1
    rw [get?_cons]
    rcases List.mem_cons.mp inside with here | there
    · obtain ⟨rfl, rfl⟩ := Prod.mk.inj here
      rw [if_pos rfl]
    · have other : name ≠ key := fun same => fresh (same ▸ List.mem_map_of_mem there)
      rw [if_neg other]
      exact ih (List.nodup_cons.mp distinct).2 there

theorem get?_append (first second : Mapping α) (key : String) :
    get? (first ++ second) key = (get? first key).or (get? second key) := by
  induction first with
  | nil => rfl
  | cons entry rest ih =>
    obtain ⟨name, held⟩ := entry
    by_cases same : name = key
    · simp [get?_cons, same]
    · simp [get?_cons, same, ih]

/-- Mappings with each key once are equal if their keys come in one order with one value each. -/
theorem eq_of_get? {first second : Mapping α} (distinct : Distinct first)
    (order : keys first = keys second) (same : ∀ key, get? first key = get? second key) :
    first = second := by
  induction first generalizing second with
  | nil =>
    have empty : second.map Prod.fst = [] := order.symm
    exact (List.map_eq_nil_iff.mp empty).symm
  | cons entry rest ih =>
    obtain ⟨name, held⟩ := entry
    cases second with
    | nil => cases order
    | cons other others =>
      obtain ⟨key, value⟩ := other
      obtain ⟨fresh, later⟩ := List.nodup_cons.mp distinct
      obtain ⟨names, rests⟩ := List.cons.inj order
      obtain rfl : name = key := names
      have values : held = value := by simpa [get?_cons] using same name
      have tails : rest = others := by
        apply ih later rests
        intro key
        by_cases here : name = key
        · -- The first key comes in neither tail.
          subst here
          have missing : name ∉ keys others := by
            rw [← show keys rest = keys others from rests]
            exact fresh
          rw [(get?_eq_none_iff rest name).mpr fresh, (get?_eq_none_iff others name).mpr missing]
        · simpa [get?_cons, here] using same key
      rw [values, tails]

theorem mem_alter {update : Option α → α} {key : String} {entries : Mapping α}
    {entry : String × α} (inside : entry ∈ alter update key entries) :
    entry = (key, update (get? entries key)) ∨ entry ∈ entries := by
  induction entries with
  | nil => simpa [alter] using inside
  | cons first rest ih =>
    obtain ⟨name, held⟩ := first
    by_cases same : name = key
    · simp only [alter, same, if_true, List.mem_cons, get?_cons] at inside ⊢
      rcases inside with here | there
      · exact Or.inl here
      · exact Or.inr (Or.inr there)
    · simp only [alter, same, if_false, List.mem_cons, get?_cons] at inside ⊢
      rcases inside with here | there
      · exact Or.inr (Or.inl here)
      · rcases ih there with written | before
        · exact Or.inl written
        · exact Or.inr (Or.inr before)

/-- A write leaves the keys as they were and adds its own last if it is new. -/
theorem keys_alter (update : Option α → α) (key : String) (entries : Mapping α) :
    keys (alter update key entries) =
      if key ∈ keys entries then keys entries else keys entries ++ [key] := by
  induction entries with
  | nil => simp [alter]
  | cons entry rest ih =>
    obtain ⟨name, held⟩ := entry
    by_cases same : name = key
    · simp [alter, same]
    · by_cases inside : key ∈ keys rest <;> simp [alter, same, ih, inside, Ne.symm same]

theorem alter_of_notMem (update : Option α → α) {key : String} {entries : Mapping α}
    (fresh : key ∉ keys entries) : alter update key entries = entries ++ [(key, update none)] := by
  induction entries with
  | nil => rfl
  | cons entry rest ih =>
    obtain ⟨name, held⟩ := entry
    have other : name ≠ key := fun same => fresh (by simp [same])
    have later : key ∉ keys rest := fun inside => fresh (List.mem_cons_of_mem _ inside)
    rw [alter, if_neg other, ih later, List.cons_append]

/-- A read sees the write at its own key and nothing of it elsewhere. -/
theorem get?_alter (update : Option α → α) (key other : String) (entries : Mapping α) :
    get? (alter update key entries) other =
      if key = other then some (update (get? entries key)) else get? entries other := by
  induction entries with
  | nil => simp [alter, get?_cons]
  | cons entry rest ih =>
    obtain ⟨name, held⟩ := entry
    by_cases same : name = key
    · subst same
      by_cases hit : name = other <;> simp [alter, get?_cons, hit]
    · by_cases hit : key = other
      · subst hit
        simp [alter, get?_cons, same, ih]
      · simp [alter, get?_cons, same, ih, hit]

theorem alter_alter (first second : Option α → α) (key : String) (entries : Mapping α) :
    alter second key (alter first key entries) =
      alter (fun held => second (some (first held))) key entries := by
  induction entries with
  | nil => simp [alter]
  | cons entry rest ih =>
    obtain ⟨name, held⟩ := entry
    by_cases same : name = key
    · simp [alter, same]
    · simp [alter, same, ih]

theorem alter_eq_self {update : Option α → α} {entries : Mapping α}
    {key : String} {held : α} (found : get? entries key = some held)
    (same : update (some held) = held) : alter update key entries = entries := by
  induction entries with
  | nil => cases found
  | cons entry rest ih =>
    obtain ⟨name, first⟩ := entry
    rw [get?_cons] at found
    by_cases here : name = key
    · rw [if_pos here, Option.some.injEq] at found
      rw [alter, if_pos here, found, same]
    · rw [if_neg here] at found
      rw [alter, if_neg here, ih found]

theorem distinct_alter {entries : Mapping α} (distinct : Distinct entries)
    (update : Option α → α) (key : String) : Distinct (alter update key entries) := by
  unfold Distinct at distinct ⊢
  rw [keys_alter]
  split
  · exact distinct
  · rename_i fresh
    exact List.nodup_append.mpr ⟨distinct, by simp, fun a inside b last equal => by
      simp only [List.mem_singleton] at last
      exact fresh (last ▸ equal ▸ inside)⟩

theorem distinct_ofEntries (entries : List (String × α)) : Distinct (ofEntries entries) :=
  List.foldlRecOn entries _ List.nodup_nil
    fun _ distinct entry _ => distinct_alter distinct (fun _ => entry.2) entry.1

theorem notMem_keys_of_distinct {front back : Mapping α} {key : String} {value : α}
    (distinct : Distinct (front ++ (key, value) :: back)) : key ∉ keys front := by
  intro inside
  simp only [Distinct, keys, List.map_append, List.map_cons, List.nodup_append] at distinct
  exact distinct.2.2 key inside key (List.mem_cons_self ..) rfl

theorem ofEntries_of_distinct {entries : Mapping α} (distinct : Distinct entries) :
    ofEntries entries = entries := by
  -- The entries go into a mapping that is no longer empty after the first.
  have general : ∀ built : Mapping α, Distinct (built ++ entries) →
      entries.foldl (fun built entry => insert built entry.1 entry.2) built = built ++ entries := by
    clear distinct
    induction entries with
    | nil => simp
    | cons entry rest ih =>
      intro built distinct
      obtain ⟨key, value⟩ := entry
      have regrouped : built ++ (key, value) :: rest = (built ++ [(key, value)]) ++ rest :=
        List.append_cons ..
      rw [List.foldl_cons, insert, alter_of_notMem _ (notMem_keys_of_distinct distinct), regrouped]
      exact ih _ (regrouped ▸ distinct)
  exact general [] distinct

/-- A write leaves the other entries as they were, in their order. -/
theorem without_alter (update : Option α → α) (key : String) (entries : Mapping α) :
    without (alter update key entries) key = without entries key := by
  unfold without
  induction entries with
  | nil => simp [alter]
  | cons entry rest ih =>
    obtain ⟨name, held⟩ := entry
    by_cases same : name = key
    · simp [alter, same]
    · simp only [alter, same, if_false, List.filter_cons, ih]

theorem getElem?_alter_of_ne (update : Option α → α) {key : String} {entries : Mapping α}
    {index : Nat} {entry : String × α} (placed : entries[index]? = some entry)
    (other : entry.1 ≠ key) : (alter update key entries)[index]? = some entry := by
  induction entries generalizing index with
  | nil => simp at placed
  | cons first rest ih =>
    obtain ⟨name, held⟩ := first
    by_cases same : name = key
    · cases index with
      | zero =>
        simp only [List.getElem?_cons_zero, Option.some.injEq] at placed
        exact absurd (placed ▸ same : entry.1 = key) other
      | succ index => simpa [alter, same] using placed
    · cases index with
      | zero => simpa [alter, same] using placed
      | succ index =>
        simp only [alter, same, if_false, List.getElem?_cons_succ] at placed ⊢
        exact ih placed

theorem mem_ofEntries {entries : List (String × α)} {entry : String × α}
    (inside : entry ∈ ofEntries entries) : entry ∈ entries := by
  refine List.foldlRecOn entries _ (motive := fun built => ∀ entry ∈ built, entry ∈ entries)
    (by simp) ?_ entry inside
  intro built before first member entry inside
  rcases mem_alter inside with rfl | there
  · exact member
  · exact before entry there

/-- Entries with other values under keys that each come once are inserted as they stand. -/
theorem ofEntries_map_values {β : Type} {entries : Mapping α} {change plain : α → β}
    (distinct : Distinct entries) (same : ∀ entry ∈ entries, change entry.2 = plain entry.2) :
    ofEntries (entries.map fun entry => (entry.1, change entry.2)) =
      entries.map fun entry => (entry.1, plain entry.2) := by
  have each : entries.map (fun entry => (entry.1, change entry.2)) =
      entries.map fun entry => (entry.1, plain entry.2) := by
    apply List.map_congr_left
    intro entry inside
    rw [same entry inside]
  rw [each]
  apply ofEntries_of_distinct
  rw [Distinct, keys_map_values]
  exact distinct

theorem keys_insert (entries : Mapping α) (key : String) (value : α) :
    keys (insert entries key value) =
      if key ∈ keys entries then keys entries else keys entries ++ [key] :=
  keys_alter _ _ _

theorem get?_insert (entries : Mapping α) (key other : String) (value : α) :
    get? (insert entries key value) other =
      if key = other then some value else get? entries other :=
  get?_alter _ _ _ _

theorem mem_keys_ofEntries {entries : List (String × α)} {key : String} :
    key ∈ keys (ofEntries entries) ↔ key ∈ keys entries := by
  -- The entries go into a mapping that is no longer empty after the first.
  have general : ∀ built : Mapping α,
      key ∈ keys (entries.foldl (fun built entry => insert built entry.1 entry.2) built) ↔
        key ∈ keys built ∨ key ∈ keys entries := by
    induction entries with
    | nil => simp
    | cons entry rest ih =>
      intro built
      have written : key ∈ keys (insert built entry.1 entry.2) ↔
          key ∈ keys built ∨ key = entry.1 := by
        rw [keys_insert]
        split
        · rename_i present
          exact (or_iff_left_of_imp fun same => same ▸ present).symm
        · simp
      rw [List.foldl_cons, ih, written, keys_cons, List.mem_cons, or_assoc]
  have empty := general []
  rwa [keys_nil, or_iff_right List.not_mem_nil] at empty

end Mapping

end ListQuery
