import Mathlib.Data.List.Induction
import Mathlib.Data.List.Nodup
import StyleSplit.Value

/-! Collecting pairs under their names. A name that comes again keeps its place and takes the
new value, so that what is collected has every name once, where it first comes, and with the
value that is given for it last. -/
namespace StyleSplit

variable {α : Type} {name : Text} {value : α} {entries pairs : List (Text × α)}

theorem insertEntry_fresh (fresh : name ∉ entries.map Prod.fst) :
    insertEntry name value entries = entries ++ [(name, value)] := by
  induction entries with
  | nil => rfl
  | cons first rest ih =>
    simp only [List.map_cons, List.mem_cons, not_or] at fresh
    have different : (first.1 == name) = false := by simpa using fun h => fresh.1 h.symm
    simp [insertEntry, different, ih fresh.2]

theorem insertEntry_keys : (insertEntry name value entries).map Prod.fst =
    if name ∈ entries.map Prod.fst then entries.map Prod.fst
    else entries.map Prod.fst ++ [name] := by
  induction entries with
  | nil => rfl
  | cons first rest ih =>
    by_cases same : first.1 = name
    · simp [insertEntry, same]
    · have other : name ≠ first.1 := fun equal => same equal.symm
      simp only [insertEntry, beq_iff_eq, same, if_false, List.map_cons, ih, List.mem_cons, other,
        false_or]
      split <;> rfl

theorem mem_insertEntry_iff (distinct : (entries.map Prod.fst).Nodup) {entry : Text × α} :
    entry ∈ insertEntry name value entries ↔
      entry = (name, value) ∨ entry ∈ entries ∧ entry.1 ≠ name := by
  induction entries with
  | nil => simp [insertEntry]
  | cons first rest ih =>
    obtain ⟨fresh, distinct⟩ := List.nodup_cons.mp distinct
    by_cases same : first.1 = name
    · have others : ∀ entry ∈ rest, entry.1 ≠ name :=
        fun entry member equal => fresh (same ▸ equal ▸ List.mem_map_of_mem member)
      rw [insertEntry, if_pos (beq_iff_eq.mpr same), List.mem_cons, List.mem_cons, same]
      grind
    · rw [insertEntry, if_neg (mt beq_iff_eq.mp same), List.mem_cons, List.mem_cons, ih distinct]
      grind

theorem collectEntries_concat (pairs : List (Text × α)) (pair : Text × α) :
    collectEntries (pairs ++ [pair]) = insertEntry pair.1 pair.2 (collectEntries pairs) := by
  simp [collectEntries]

/-- Every name is collected once, where it first comes. -/
theorem collectEntries_keys :
    (collectEntries pairs).map Prod.fst = (pairs.map Prod.fst).eraseDups := by
  induction pairs using List.reverseRecOn with
  | nil => rfl
  | append_singleton pairs pair ih =>
    rw [collectEntries_concat, insertEntry_keys, ih, List.map_append, List.map_singleton,
      List.eraseDups_append, List.removeAll, List.filter_singleton]
    by_cases known : pair.1 ∈ pairs.map Prod.fst <;> simp [known, List.eraseDups_cons]

theorem collectEntries_distinct : ((collectEntries pairs).map Prod.fst).Nodup := by
  induction pairs using List.reverseRecOn with
  | nil => exact List.nodup_nil
  | append_singleton pairs pair ih =>
    rw [collectEntries_concat, insertEntry_keys]
    split
    · exact ih
    · rename_i fresh
      rw [← List.concat_eq_append]
      exact ih.concat fresh

/-- A name has the value that is given for it last. -/
theorem mem_collectEntries_iff : (name, value) ∈ collectEntries pairs ↔
    ∃ earlier later, pairs = earlier ++ (name, value) :: later ∧ name ∉ later.map Prod.fst := by
  induction pairs using List.reverseRecOn with
  | nil => simp [collectEntries]
  | append_singleton pairs pair ih =>
    rw [collectEntries_concat, mem_insertEntry_iff collectEntries_distinct, ih]
    constructor
    · rintro (same | ⟨⟨earlier, later, rfl, last⟩, other⟩)
      · exact ⟨pairs, [], by rw [same], List.not_mem_nil⟩
      · refine ⟨earlier, later ++ [pair], by simp, ?_⟩
        rw [List.map_append, List.mem_append, not_or]
        exact ⟨last, mt List.mem_singleton.mp other⟩
    · rintro ⟨earlier, later, split, last⟩
      rcases List.eq_nil_or_concat' later with rfl | ⟨later, final, rfl⟩
      · obtain ⟨-, same⟩ := List.append_inj' split rfl
        exact .inl (List.singleton_inj.mp same).symm
      · rw [← List.cons_append, ← List.append_assoc] at split
        obtain ⟨front, same⟩ := List.append_inj' split rfl
        obtain rfl := List.singleton_inj.mp same
        rw [List.map_append, List.mem_append, not_or] at last
        exact .inr ⟨⟨earlier, later, front, last.1⟩, mt List.mem_singleton.mpr last.2⟩

/-- Nothing is lost or moved in collecting exactly when no name comes twice. -/
theorem collectEntries_eq_self_iff : collectEntries pairs = pairs ↔ (pairs.map Prod.fst).Nodup := by
  constructor
  · intro same
    exact same ▸ collectEntries_distinct
  · intro distinct
    induction pairs using List.reverseRecOn with
    | nil => rfl
    | append_singleton pairs pair ih =>
      rw [List.map_append, List.map_singleton] at distinct
      rw [collectEntries_concat, ih distinct.of_append_left, insertEntry_fresh]
      exact fun member => List.disjoint_of_nodup_append distinct member (List.mem_singleton_self _)

end StyleSplit
