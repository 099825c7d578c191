import Mathlib.Order.Basic
import Mathlib.Data.List.Basic
import Mathlib.Data.List.Pairwise
import Mathlib.Data.List.Nodup
import Mathlib.Data.List.Sort

/-!
Ordered sets and ordered maps as strictly sorted lists. Strictness is carried by
the structures, so membership determines a set and a key determines its value.
Iteration is in increasing order, as for tree containers.
-/
namespace OrderedContainers

section Sets
variable {α : Type} [LinearOrder α]

structure OSet (α : Type) [LinearOrder α] where
  elems : List α
  sorted : elems.Pairwise (· < ·)

def insertList (x : α) : List α → List α
  | [] => [x]
  | y :: ys => if x < y then x :: y :: ys else if x = y then y :: ys else y :: insertList x ys

theorem mem_insertList {x y : α} {xs : List α} :
    y ∈ insertList x xs ↔ y = x ∨ y ∈ xs := by
  induction xs with
  | nil => simp [insertList]
  | cons z zs ih =>
    simp only [insertList]
    split
    · simp
    · split
      · rename_i same; subst same; simp
      · simp only [List.mem_cons, ih]; tauto

theorem insertList_sorted {x : α} {xs : List α} (sorted : xs.Pairwise (· < ·)) :
    (insertList x xs).Pairwise (· < ·) := by
  induction xs with
  | nil => simp [insertList]
  | cons z zs ih =>
    obtain ⟨head, tail⟩ := List.pairwise_cons.mp sorted
    simp only [insertList]
    split
    · rename_i lt
      refine List.pairwise_cons.mpr ⟨?_, sorted⟩
      intro w mem
      rcases List.mem_cons.mp mem with same | mem
      · subst same; exact lt
      · exact lt_trans lt (head w mem)
    · split
      · exact sorted
      · rename_i notlt ne
        refine List.pairwise_cons.mpr ⟨?_, ih tail⟩
        intro w mem
        rcases mem_insertList.mp mem with same | mem
        · subst same; exact lt_of_le_of_ne (not_lt.mp notlt) (Ne.symm ne)
        · exact head w mem

theorem insertList_mem {x : α} {xs : List α} (sorted : xs.Pairwise (· < ·)) (mem : x ∈ xs) :
    insertList x xs = xs := by
  induction xs with
  | nil => simp at mem
  | cons z zs ih =>
    obtain ⟨head, tail⟩ := List.pairwise_cons.mp sorted
    simp only [insertList]
    rcases List.mem_cons.mp mem with same | mem
    · subst same; simp
    · have above := head x mem
      rw [if_neg (not_lt_of_gt above), if_neg (ne_of_gt above), ih tail mem]

namespace OSet

instance : Membership α (OSet α) := ⟨fun s x => x ∈ s.elems⟩

instance (x : α) (s : OSet α) : Decidable (x ∈ s) :=
  inferInstanceAs (Decidable (x ∈ s.elems))

def empty : OSet α := ⟨[], List.Pairwise.nil⟩

instance : Inhabited (OSet α) := ⟨empty⟩

def insert (x : α) (s : OSet α) : OSet α := ⟨insertList x s.elems, insertList_sorted s.sorted⟩

def erase (x : α) (s : OSet α) : OSet α :=
  ⟨s.elems.filter (fun y => y ≠ x), s.sorted.filter _⟩

@[simp] theorem mem_elems {x : α} {s : OSet α} : x ∈ s.elems ↔ x ∈ s := Iff.rfl

@[simp] theorem not_mem_empty {x : α} : x ∉ (empty : OSet α) := by
  change x ∉ ([] : List α); simp

@[simp] theorem mem_insert {x y : α} {s : OSet α} : y ∈ s.insert x ↔ y = x ∨ y ∈ s :=
  mem_insertList

@[simp] theorem mem_erase {x y : α} {s : OSet α} : y ∈ s.erase x ↔ y ∈ s ∧ y ≠ x := by
  change y ∈ s.elems.filter _ ↔ _
  simp

theorem mem_foldl_insert {x : α} {s : OSet α} (ys : List α) :
    x ∈ ys.foldl (fun s y => s.insert y) s ↔ x ∈ s ∨ x ∈ ys := by
  induction ys generalizing s with
  | nil => simp
  | cons y ys ih =>
    rw [List.foldl_cons, ih, mem_insert, List.mem_cons]
    tauto

theorem nodup (s : OSet α) : s.elems.Nodup := s.sorted.imp ne_of_lt

theorem ext {s t : OSet α} (same : ∀ x, x ∈ s ↔ x ∈ t) : s = t := by
  have lists : s.elems = t.elems := by
    refine List.Perm.eq_of_pairwise ?_ s.sorted t.sorted
      ((List.perm_ext_iff_of_nodup s.nodup t.nodup).mpr same)
    intro a b _ _ ab ba
    exact absurd ba (not_lt_of_gt ab)
  cases s; cases t; simp_all

end OSet
end Sets

section Maps
variable {κ β : Type} [LinearOrder κ]

structure OMap (κ β : Type) [LinearOrder κ] where
  entries : List (κ × β)
  sorted : (entries.map Prod.fst).Pairwise (· < ·)

def modifyList (k : κ) (f : Option β → β) : List (κ × β) → List (κ × β)
  | [] => [(k, f none)]
  | (j, b) :: rest =>
    if k < j then (k, f none) :: (j, b) :: rest
    else if k = j then (j, f (some b)) :: rest
    else (j, b) :: modifyList k f rest

theorem keys_modifyList (k : κ) (f : Option β → β) (xs : List (κ × β)) :
    (modifyList k f xs).map Prod.fst = insertList k (xs.map Prod.fst) := by
  induction xs with
  | nil => rfl
  | cons e rest ih =>
    obtain ⟨j, b⟩ := e
    simp only [modifyList, List.map_cons, insertList]
    split
    · rfl
    · split
      · rfl
      · simp [ih]

def lookupList (k : κ) : List (κ × β) → Option β
  | [] => none
  | (j, b) :: rest => if k = j then some b else lookupList k rest

theorem lookupList_modifyList (k j : κ) (f : Option β → β) {xs : List (κ × β)}
    (sorted : (xs.map Prod.fst).Pairwise (· < ·)) :
    lookupList j (modifyList k f xs) =
      if j = k then some (f (lookupList k xs)) else lookupList j xs := by
  induction xs with
  | nil => simp [modifyList, lookupList]
  | cons e rest ih =>
    obtain ⟨i, b⟩ := e
    obtain ⟨head, tail⟩ := List.pairwise_cons.mp sorted
    simp only [modifyList]
    split
    · rename_i lt
      have absent : lookupList k ((i, b) :: rest) = none := by
        have below : ∀ ys : List (κ × β), (∀ y ∈ ys, k < y.1) → lookupList k ys = none := by
          intro ys
          induction ys with
          | nil => intro _; rfl
          | cons y ys ihy =>
            intro all
            have first := all y (by simp)
            simp [lookupList, ne_of_lt first, ihy (fun z mem => all z (by simp [mem]))]
        apply below
        intro y mem
        rcases List.mem_cons.mp mem with same | mem
        · subst same; exact lt
        · exact lt_trans lt (head y.1 (List.mem_map_of_mem mem))
      rw [absent]
      simp [lookupList]
    · split
      · rename_i same
        subst same
        by_cases eq : j = k <;> simp [lookupList, eq]
      · rename_i notlt ne
        simp only [lookupList, ih tail]
        by_cases eq : j = i
        · subst eq; simp [Ne.symm ne]
        · simp [eq, ne]

theorem lookupList_eq_some {k : κ} {b : β} {xs : List (κ × β)}
    (sorted : (xs.map Prod.fst).Pairwise (· < ·)) :
    lookupList k xs = some b ↔ (k, b) ∈ xs := by
  induction xs with
  | nil => simp [lookupList]
  | cons e rest ih =>
    obtain ⟨j, c⟩ := e
    obtain ⟨head, tail⟩ := List.pairwise_cons.mp sorted
    simp only [lookupList]
    split
    · rename_i same
      subst same
      constructor
      · intro h; simp at h; simp [h]
      · intro mem
        rcases List.mem_cons.mp mem with same | mem
        · simp at same; simp [same]
        · exact absurd (head k (List.mem_map.mpr ⟨_, mem, rfl⟩)) (lt_irrefl k)
    · rename_i ne
      rw [ih tail]
      simp [ne]

namespace OMap

def empty : OMap κ β := ⟨[], List.Pairwise.nil⟩

def size (m : OMap κ β) : Nat := m.entries.length

def lookup (m : OMap κ β) (k : κ) : Option β := lookupList k m.entries

/-- `m[k]` on the left of an update: the entry is created when it is missing. -/
def modify (m : OMap κ β) (k : κ) (f : Option β → β) : OMap κ β :=
  ⟨modifyList k f m.entries, by rw [keys_modifyList]; exact insertList_sorted m.sorted⟩

def eraseKey (m : OMap κ β) (k : κ) : OMap κ β :=
  ⟨m.entries.filter (fun e => e.1 ≠ k),
    m.sorted.sublist (List.filter_sublist.map Prod.fst)⟩

def last? (m : OMap κ β) : Option (κ × β) := m.entries.getLast?

/-- The last entry whose key is below `k`: one step back from the lower bound of `k`. -/
def before? (m : OMap κ β) (k : κ) : Option (κ × β) :=
  (m.entries.filter (fun e => e.1 < k)).getLast?

@[simp] theorem lookup_empty (k : κ) : (empty : OMap κ β).lookup k = none := rfl

theorem lookup_modify (m : OMap κ β) (k j : κ) (f : Option β → β) :
    (m.modify k f).lookup j = if j = k then some (f (m.lookup k)) else m.lookup j :=
  lookupList_modifyList k j f m.sorted

theorem mem_entries {m : OMap κ β} {k : κ} {b : β} :
    (k, b) ∈ m.entries ↔ m.lookup k = some b := (lookupList_eq_some m.sorted).symm

theorem lookup_eraseKey (m : OMap κ β) (k j : κ) :
    (m.eraseKey k).lookup j = if j = k then none else m.lookup j := by
  apply Option.ext
  intro b
  rw [← mem_entries]
  change (j, b) ∈ m.entries.filter _ ↔ _
  by_cases same : j = k
  · simp [same]
  · simp [same, mem_entries]

theorem getLast_greatest {xs : List (κ × β)} (sorted : (xs.map Prod.fst).Pairwise (· < ·))
    {e : κ × β} (last : xs.getLast? = some e) : e ∈ xs ∧ ∀ d ∈ xs, d.1 ≤ e.1 := by
  obtain ⟨front, split⟩ := List.getLast?_eq_some_iff.mp last
  subst split
  refine ⟨by simp, ?_⟩
  intro d mem
  rcases List.mem_append.mp mem with mem | mem
  · simp only [List.map_append, List.pairwise_append] at sorted
    exact le_of_lt (sorted.2.2 d.1 (List.mem_map_of_mem mem) e.1 (by simp))
  · simp at mem; simp [mem]

theorem last?_spec {m : OMap κ β} {k : κ} {b : β} (last : m.last? = some (k, b)) :
    m.lookup k = some b ∧ ∀ j c, m.lookup j = some c → j ≤ k := by
  obtain ⟨mem, greatest⟩ := getLast_greatest m.sorted last
  exact ⟨mem_entries.mp mem, fun j c found => greatest (j, c) (mem_entries.mpr found)⟩

theorem before?_spec {m : OMap κ β} {bound k : κ} {b : β}
    (found : m.before? bound = some (k, b)) :
    m.lookup k = some b ∧ k < bound ∧ ∀ j c, m.lookup j = some c → j < bound → j ≤ k := by
  have sorted := m.sorted.sublist
    ((List.filter_sublist (p := fun e => decide (e.1 < bound)) (l := m.entries)).map Prod.fst)
  obtain ⟨mem, greatest⟩ := getLast_greatest sorted found
  simp only [List.mem_filter, decide_eq_true_eq] at mem greatest
  exact ⟨mem_entries.mp mem.1, mem.2,
    fun j c at_j below => greatest (j, c) ⟨mem_entries.mpr at_j, below⟩⟩

theorem size_eraseKey {m : OMap κ β} {k : κ} {b : β} (found : m.lookup k = some b) :
    (m.eraseKey k).size < m.size := by
  refine List.length_filter_lt_length_iff_exists.mpr ?_
  exact ⟨(k, b), mem_entries.mpr found, by simp⟩

theorem size_pos {m : OMap κ β} {k : κ} {b : β} (found : m.lookup k = some b) : 0 < m.size :=
  List.length_pos_of_mem (mem_entries.mpr found)

theorem size_eq_zero {m : OMap κ β} (zero : m.size = 0) (k : κ) : m.lookup k = none := by
  cases found : m.lookup k with
  | none => rfl
  | some b => have := size_pos found; omega

theorem key_of_size_one {m : OMap κ β} (one : m.size = 1) {j k : κ} {b c : β}
    (at_j : m.lookup j = some b) (at_k : m.lookup k = some c) : j = k := by
  obtain ⟨e, only⟩ := List.length_eq_one_iff.mp one
  have left := mem_entries.mpr at_j
  have right := mem_entries.mpr at_k
  rw [only, List.mem_singleton] at left right
  exact congrArg Prod.fst (left.trans right.symm)

theorem last?_of_size {m : OMap κ β} (pos : 0 < m.size) : ∃ k b, m.last? = some (k, b) := by
  cases last : m.last? with
  | some e => exact ⟨e.1, e.2, rfl⟩
  | none =>
    have := List.getLast?_eq_none_iff.mp last
    simp [size, this] at pos

def keys (m : OMap κ β) : List κ := m.entries.map Prod.fst

theorem keys_modify {m : OMap κ β} {k : κ} {b : β} (f : Option β → β)
    (found : m.lookup k = some b) : (m.modify k f).keys = m.keys := by
  have mem : k ∈ m.keys := List.mem_map.mpr ⟨(k, b), mem_entries.mpr found, rfl⟩
  exact (keys_modifyList k f m.entries).trans (insertList_mem m.sorted mem)

theorem size_of_keys {m n : OMap κ β} (same : n.keys = m.keys) : n.size = m.size := by
  have := congrArg List.length same
  simpa [keys, size] using this

theorem last?_of_keys {m n : OMap κ β} (same : n.keys = m.keys) {k : κ} {b : β}
    (last : m.last? = some (k, b)) : ∃ c, n.last? = some (k, c) := by
  have := congrArg List.getLast? same
  rw [keys, keys, List.getLast?_map, List.getLast?_map] at this
  rw [last?] at last
  rw [last] at this
  obtain ⟨⟨j, c⟩, eq, rfl⟩ := Option.map_eq_some_iff.mp this
  exact ⟨c, eq⟩

theorem mem_downTo {m : OMap κ β} {k : κ} {e : κ × β} :
    e ∈ m.entries.reverse.takeWhile (fun e => k ≤ e.1) ↔ e ∈ m.entries ∧ k ≤ e.1 := by
  have walk : ∀ xs : List (κ × β), xs.Pairwise (fun d e => e.1 < d.1) →
      (e ∈ xs.takeWhile (fun e => k ≤ e.1) ↔ e ∈ xs ∧ k ≤ e.1) := by
    intro xs
    induction xs with
    | nil => intro _; simp
    | cons d xs ih =>
      intro sorted
      obtain ⟨head, tail⟩ := List.pairwise_cons.mp sorted
      by_cases above : k ≤ d.1
      · rw [List.takeWhile_cons_of_pos (by simpa using above), List.mem_cons, ih tail,
          List.mem_cons]
        constructor
        · rintro (same | ⟨mem, le⟩)
          · exact ⟨Or.inl same, by rw [same]; exact above⟩
          · exact ⟨Or.inr mem, le⟩
        · rintro ⟨same | mem, le⟩
          · exact Or.inl same
          · exact Or.inr ⟨mem, le⟩
      · rw [List.takeWhile_cons_of_neg (by simpa using above)]
        constructor
        · intro mem; simp at mem
        · rintro ⟨mem, le⟩
          rcases List.mem_cons.mp mem with same | mem
          · rw [same] at le; exact absurd le above
          · exact absurd (le.trans (le_of_lt (head e mem))) above
  rw [walk m.entries.reverse ?_, List.mem_reverse]
  rw [List.pairwise_reverse]
  exact List.pairwise_map.mp m.sorted

section Below
variable {m : OMap κ β} {k : κ} {front : List (κ × β)} {e : κ × β}

def below (m : OMap κ β) (k : κ) : List (κ × β) := m.entries.filter (fun e => e.1 < k)

def notBelow (m : OMap κ β) (k : κ) : List (κ × β) := m.entries.filter (fun e => ¬ e.1 < k)

theorem before?_below (m : OMap κ β) (k : κ) : m.before? k = (m.below k).getLast? := rfl

theorem entries_split (m : OMap κ β) (k : κ) : m.entries = m.below k ++ m.notBelow k := by
  have sorted := m.sorted
  simp only [below, notBelow]
  generalize m.entries = xs at sorted
  induction xs with
  | nil => rfl
  | cons d xs ih =>
    obtain ⟨head, tail⟩ := List.pairwise_cons.mp sorted
    by_cases less : d.1 < k
    · rw [List.filter_cons_of_pos (by simpa using less), List.filter_cons_of_neg (by simpa using less),
        List.cons_append, ← ih tail]
    · have none : xs.filter (fun e => decide (e.1 < k)) = [] := by
        apply List.filter_eq_nil_iff.mpr
        intro c mem
        have above := head c.1 (List.mem_map_of_mem mem)
        simpa using le_of_lt (lt_of_le_of_lt (not_lt.mp less) above)
      rw [List.filter_cons_of_neg (by simpa using less), List.filter_cons_of_pos (by simpa using less),
        none, List.nil_append]
      rw [none, List.nil_append] at ih
      rw [← ih tail]

theorem front_less (shape : m.below k = front ++ [e]) : ∀ d ∈ front, d.1 < e.1 := by
  have sorted := m.sorted
  rw [entries_split m k, shape] at sorted
  simp only [List.map_append, List.pairwise_append] at sorted
  intro d mem
  exact sorted.1.2.2 d.1 (List.mem_map_of_mem mem) e.1 (by simp)

theorem below_last (shape : m.below k = front ++ [e]) : m.below e.1 = front := by
  have less := front_less shape
  have bound : e.1 < k := by
    have mem : e ∈ m.below k := by rw [shape]; simp
    simpa [below] using (List.mem_filter.mp mem).2
  have whole := entries_split m k
  rw [shape] at whole
  rw [below, whole, List.filter_append, List.filter_append,
    List.filter_eq_self.mpr (fun d mem => by simpa using less d mem),
    List.filter_cons_of_neg (by simp), List.filter_nil, List.append_nil]
  have none : (m.notBelow k).filter (fun d => decide (d.1 < e.1)) = [] := by
    apply List.filter_eq_nil_iff.mpr
    intro d mem
    have above := (List.mem_filter.mp mem).2
    simp only [not_lt, decide_eq_true_eq] at above
    simpa using le_trans (le_of_lt bound) above
  rw [none, List.append_nil]

theorem below_eraseKey (shape : m.below k = front ++ [e]) : (m.eraseKey e.1).below k = front := by
  have less := front_less shape
  have swapped : (m.eraseKey e.1).below k = (m.below k).filter (fun d => d.1 ≠ e.1) := by
    simp only [below, eraseKey, List.filter_filter]
    apply List.filter_congr
    intro d _
    rw [Bool.and_comm]
  rw [swapped, shape, List.filter_append, List.filter_eq_self.mpr
    (fun d mem => by simpa using ne_of_lt (less d mem)), List.filter_cons_of_neg (by simp),
    List.filter_nil, List.append_nil]

theorem notBelow_eraseKey (bound : e.1 < k) : (m.eraseKey e.1).notBelow k = m.notBelow k := by
  simp only [notBelow, eraseKey, List.filter_filter]
  apply List.filter_congr
  intro d _
  by_cases less : d.1 < k
  · simp [less]
  · have ne : d.1 ≠ e.1 := fun same => less (by rw [same]; exact bound)
    simp [less, ne]

end Below

end OMap
end Maps
end OrderedContainers
