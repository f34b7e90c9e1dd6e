import StyleSplit.Proofs.Parsing.Soundness

/-! Closing a column. Operations only add to a draft, and an item that is new is on one of
its lists. What the agenda no longer holds has been followed up: an item that waits for a
nonterminal has had its productions noted, and every item that waits for a finished part
has been taken on over it. -/
namespace StyleSplit.Script

variable {g : Grammar} {w : List Token} {here : Nat} {columns : Array Column}

theorem Item.advance_alike (i : Item) (t u : Tree) (priority priority' : Int) :
    (i.advance t priority).Alike (i.advance u priority') := by
  refine ⟨rfl, rfl, ?_⟩
  by_cases done : i.rest.tail = []
  · exact .inl ⟨done, done⟩
  · exact .inr ⟨done, done, rfl, rfl⟩

namespace NonterminalSet

variable {s : NonterminalSet} {n m : Nonterminal}

theorem contains_insert : (s.insert n).contains m = true ↔ m = n ∨ s.contains m = true := by
  have index : n.ctorIdx = m.ctorIdx ↔ m = n := by
    constructor
    · intro same
      rw [← Nonterminal.ofNat_ctorIdx n, same, Nonterminal.ofNat_ctorIdx]
    · rintro rfl
      rfl
  have power : Nat.shiftLeft 1 n.ctorIdx = 2 ^ n.ctorIdx := Nat.one_shiftLeft _
  unfold insert contains
  rw [power]
  change (s.bits ||| 2 ^ n.ctorIdx).testBit m.ctorIdx = true ↔ _
  rw [Nat.testBit_or, Nat.testBit_two_pow]
  simp [index, or_comm]

theorem addAll_spec (heads : List Nonterminal) (s : NonterminalSet) :
    ((∀ n, (s.addAll heads).2.contains n = true ↔
        s.contains n = true ∨ n ∈ (s.addAll heads).1) ∧
      ∀ n ∈ heads, (s.addAll heads).2.contains n = true) ∧
      (s.addAll heads).1.Nodup ∧ ∀ n ∈ (s.addAll heads).1, s.contains n = false := by
  induction heads generalizing s with
  | nil => simp [addAll]
  | cons n rest ih =>
    unfold addAll
    split
    · rename_i known
      obtain ⟨⟨members, added⟩, others⟩ := ih s
      refine ⟨⟨members, ?_⟩, others⟩
      intro m member
      rcases List.mem_cons.mp member with rfl | member
      · exact (members _).mpr (.inl known)
      · exact added m member
    · rename_i new
      obtain ⟨⟨members, added⟩, distinct, fresh⟩ := ih (s.insert n)
      simp only
      refine ⟨⟨?_, ?_⟩, ?_, ?_⟩
      · intro m
        rw [members, contains_insert, List.mem_cons]
        tauto
      · intro m member
        rcases List.mem_cons.mp member with rfl | member
        · exact (members _).mpr (.inl (contains_insert.mpr (.inl rfl)))
        · exact added m member
      · refine List.nodup_cons.mpr ⟨fun again => ?_, distinct⟩
        have absent := fresh n again
        rw [contains_insert.mpr (.inl rfl)] at absent
        contradiction
      · intro m member
        rcases List.mem_cons.mp member with rfl | member
        · exact Bool.eq_false_iff.mpr new
        · refine Bool.eq_false_iff.mpr fun known => ?_
          have absent := fresh m member
          rw [contains_insert.mpr (.inr known)] at absent
          contradiction

end NonterminalSet

namespace Draft

variable {d d' d'' : Draft} {i x : Item} {pending : List Item}

/-- An item is on the list that its next symbol asks for. -/
structure Lists (d : Draft) (i : Item) : Prop where
  waiting {t : Terminal} {rest : List Symbol} : i.rest = .terminal t :: rest → i ∈ d.waiting
  active {n : Nonterminal} {rest : List Symbol} : i.rest = .nonterminal n :: rest → i ∈ d.active
  agenda : i.rest = [] → i ∈ d.agenda

/-- What adding items to a draft keeps, and where the new ones are. -/
structure Grows (g : Grammar) (here : Nat) (d d' : Draft) : Prop where
  agenda : d.agenda ⊆ d'.agenda
  active : d.active ⊆ d'.active
  waiting : d.waiting ⊆ d'.waiting
  empty : d'.empty = d.empty
  ways : d.ways.map Ways.item ⊆ d'.ways.map Ways.item
  predicted {n : Nonterminal} : d.predicted.contains n = true → d'.predicted.contains n = true
  newActive : ∀ i ∈ d'.active, i ∈ d.active ∨ i ∈ d'.agenda
  newWays : ∀ i ∈ d'.ways.map Ways.item, i ∈ d.ways.map Ways.item ∨ d'.Lists i
  newPredicted {n : Nonterminal} {p : Production} : d'.predicted.contains n = true →
    p ∈ g.productions n → d.predicted.contains n = true ∨ d'.Lists (Item.begin here p)

theorem Lists.mono (lists : d.Lists i) (agenda : d.agenda ⊆ d'.agenda)
    (active : d.active ⊆ d'.active) (waiting : d.waiting ⊆ d'.waiting) : d'.Lists i where
  waiting next := waiting (lists.waiting next)
  active next := active (lists.active next)
  agenda done := agenda (lists.agenda done)

theorem Grows.refl (d : Draft) : Grows g here d d := by
  constructor <;> simp +contextual

theorem Grows.trans (first : Grows g here d d') (last : Grows g here d' d'') :
    Grows g here d d'' where
  agenda := List.Subset.trans first.agenda last.agenda
  active := List.Subset.trans first.active last.active
  waiting := List.Subset.trans first.waiting last.waiting
  empty := last.empty.trans first.empty
  ways := List.Subset.trans first.ways last.ways
  predicted known := last.predicted (first.predicted known)
  newActive i member := by
    rcases last.newActive i member with middle | queued
    · exact (first.newActive i middle).imp_right fun h => last.agenda h
    · exact .inr queued
  newWays i member := by
    rcases last.newWays i member with middle | lists
    · exact (first.newWays i middle).imp_right
        fun h => h.mono last.agenda last.active last.waiting
    · exact .inr lists
  newPredicted known member := by
    rcases last.newPredicted known member with middle | lists
    · exact (first.newPredicted middle member).imp_right
        fun h => h.mono last.agenda last.active last.waiting
    · exact .inr lists

theorem push_spec (g : Grammar) (here : Nat) (d : Draft) (i : Item) :
    Grows g here d (d.push i) ∧ (d.push i).Lists i ∧
      (d.push i).agenda.length ≤ d.agenda.length + 1 ∧
        (d.push i).predicted = d.predicted := by
  unfold push
  split
  · rename_i t rest next
    refine ⟨?_, ?_, Nat.le_succ _, rfl⟩
    · constructor <;> simp +contextual
    · constructor <;> simp [next]
  · rename_i n rest next
    refine ⟨?_, ?_, Nat.le_refl _, rfl⟩
    · constructor <;> simp +contextual
    · constructor <;> simp [next]
  · rename_i done
    refine ⟨?_, ?_, Nat.le_refl _, rfl⟩
    · constructor <;> simp +contextual
    · constructor <;> simp [done]

/-- A step leads to an item that is there afterwards, up to the derivation it holds. -/
theorem take_spec (g : Grammar) (here : Nat) (d : Draft) (s : Step) :
    Grows g here d (d.take s) ∧ ∃ x ∈ (d.take s).ways, x.item.Alike s.item := by
  unfold take
  simp only
  rcases addStep_spec s.item s d.ways with
    ⟨front, x, back, steps, before, alike, -, result⟩ | ⟨result, -⟩
  · rw [result]
    have items : (front ++ { x with steps } :: back).map Ways.item = d.ways.map Ways.item := by
      simp [before]
    refine ⟨?_, { x with steps }, by simp, alike⟩
    constructor <;> simp +contextual [items]
  · rw [result]
    obtain ⟨grows, lists, -⟩ := push_spec g here
      { d with ways := { item := s.item, steps := [s] } :: d.ways } s.item
    refine ⟨?_, { item := s.item, steps := [s] }, by simp [push_ways], .refl _⟩
    exact { grows with
      ways := fun i known => grows.ways (List.mem_cons_of_mem _ known)
      newWays := fun i member => by
        rw [push_ways] at member
        rcases List.mem_cons.mp member with rfl | known
        · exact .inr lists
        · exact .inl known }

theorem takeAll_spec (g : Grammar) (here : Nat) (steps : List Step) (d : Draft) :
    Grows g here d (steps.foldl take d) ∧
      ∀ s ∈ steps, ∃ x ∈ (steps.foldl take d).ways, x.item.Alike s.item := by
  induction steps generalizing d with
  | nil => exact ⟨.refl d, by simp⟩
  | cons s rest ih =>
    obtain ⟨first, x, known, alike⟩ := take_spec g here d s
    obtain ⟨last, others⟩ := ih (d.take s)
    refine ⟨first.trans last, ?_⟩
    intro other member
    rcases List.mem_cons.mp member with rfl | member
    · obtain ⟨y, kept, same⟩ := List.mem_map.mp (last.ways (List.mem_map_of_mem known))
      exact ⟨y, kept, same ▸ alike⟩
    · exact others other member

theorem pushAll_spec (g : Grammar) (here : Nat) (items : List Item) (d : Draft) :
    Grows g here d (items.foldl push d) ∧ ∀ i ∈ items, (items.foldl push d).Lists i := by
  induction items generalizing d with
  | nil => exact ⟨.refl d, by simp⟩
  | cons i rest ih =>
    obtain ⟨first, lists, -⟩ := push_spec g here d i
    obtain ⟨last, others⟩ := ih (d.push i)
    refine ⟨first.trans last, ?_⟩
    intro other member
    rcases List.mem_cons.mp member with rfl | member
    · exact lists.mono last.agenda last.active last.waiting
    · exact others other member

theorem predict_spec (g : Grammar) (here : Nat) (d : Draft) (heads : List Nonterminal) :
    Grows g here d (d.predict g here heads) ∧
      ∀ n ∈ heads, (d.predict g here heads).predicted.contains n = true := by
  unfold predict
  obtain ⟨⟨members, added⟩, -, -⟩ := NonterminalSet.addAll_spec heads d.predicted
  generalize d.predicted.addAll heads = result at members added
  obtain ⟨fresh, predicted⟩ := result
  obtain ⟨grows, lists⟩ := pushAll_spec g here
    ((fresh.flatMap g.productions).map (Item.begin here)) { d with predicted }
  refine ⟨?_, fun n member => grows.predicted (added n member)⟩
  exact { grows with
    predicted := fun known => grows.predicted ((members _).mpr (.inl known))
    newPredicted := fun {n p} known member => by
      rcases grows.newPredicted known member with middle | lists
      · rcases (members n).mp middle with before | new
        · exact .inl before
        · refine .inr (lists (Item.begin here p) (List.mem_map_of_mem ?_))
          exact List.mem_flatMap.mpr ⟨n, new, member⟩
      · exact .inr lists }

/-- An item has been taken on over a finished one. -/
def Takes (d : Draft) (i whole : Item) : Prop :=
  ∃ x ∈ d.ways, x.item.Alike (i.advance whole.tree whole.priority)

/-- A finished item has been followed up. -/
structure Completed (columns : Array Column) (here : Nat) (d : Draft) (i : Item) : Prop where
  empty : i.start = here → ∃ e ∈ d.empty, e.production.head = i.production.head
  column {c : Column} : i.start ≠ here → columns[i.start]? = some c →
    ∀ x ∈ c.active, x.awaits i.production.head = true → d.Takes x i

/-- An item is kept until it has been followed up; the `pending` ones are about to be. -/
structure Kept (columns : Array Column) (here : Nat) (pending : List Item) (d : Draft)
    (i : Item) : Prop where
  waiting {t : Terminal} {rest : List Symbol} : i.rest = .terminal t :: rest → i ∈ d.waiting
  active {n : Nonterminal} {rest : List Symbol} : i.rest = .nonterminal n :: rest → i ∈ d.active
  done : i.rest = [] → i ∈ pending ∨ i ∈ d.agenda ∨ d.Completed columns here i

/-- Everything that is not on the agenda has been followed up. -/
structure Followed (g : Grammar) (columns : Array Column) (here : Nat) (pending : List Item)
    (d : Draft) : Prop where
  ways : ∀ i ∈ d.ways.map Ways.item, d.Kept columns here pending i
  predicted {n : Nonterminal} {p : Production} : d.predicted.contains n = true →
    p ∈ g.productions n → d.Kept columns here pending (Item.begin here p)
  active {n : Nonterminal} {rest : List Symbol} : ∀ i ∈ d.active, i.rest = .nonterminal n :: rest →
    i ∈ pending ∨ i ∈ d.agenda ∨ d.predicted.contains n = true ∧
      ∀ e ∈ d.empty, e.production.head = n → d.Takes i e

theorem Takes.mono (takes : d.Takes i x) (ways : d.ways.map Ways.item ⊆ d'.ways.map Ways.item) :
    d'.Takes i x := by
  obtain ⟨y, known, alike⟩ := takes
  obtain ⟨z, kept, same⟩ := List.mem_map.mp (ways (List.mem_map_of_mem known))
  exact ⟨z, kept, same ▸ alike⟩

theorem Completed.mono (completed : d.Completed columns here i) (empty : d.empty ⊆ d'.empty)
    (ways : d.ways.map Ways.item ⊆ d'.ways.map Ways.item) : d'.Completed columns here i where
  empty here := by
    obtain ⟨e, known, head⟩ := completed.empty here
    exact ⟨e, empty known, head⟩
  column earlier found x member awaits :=
    (completed.column earlier found x member awaits).mono ways

theorem Lists.kept (lists : d.Lists i) : d.Kept columns here pending i where
  waiting := lists.waiting
  active := lists.active
  done finished := .inr (.inl (lists.agenda finished))

theorem Kept.mono (kept : d.Kept columns here pending i) (grows : Grows g here d d') :
    d'.Kept columns here pending i where
  waiting next := grows.waiting (kept.waiting next)
  active next := grows.active (kept.active next)
  done finished := by
    rcases kept.done finished with now | later | completed
    · exact .inl now
    · exact .inr (.inl (grows.agenda later))
    · exact .inr (.inr (completed.mono (by simp [grows.empty]) grows.ways))

theorem Followed.grow (followed : d.Followed g columns here pending) (grows : Grows g here d d') :
    d'.Followed g columns here pending where
  ways i member := by
    rcases grows.newWays i member with known | lists
    · exact (followed.ways i known).mono grows
    · exact lists.kept
  predicted known member := by
    rcases grows.newPredicted known member with before | lists
    · exact (followed.predicted before member).mono grows
    · exact lists.kept
  active i member next := by
    rcases grows.newActive i member with known | queued
    · rcases followed.active i known next with now | later | ⟨predicted, looked⟩
      · exact .inl now
      · exact .inr (.inl (grows.agenda later))
      · refine .inr (.inr ⟨grows.predicted predicted, fun e empty head => ?_⟩)
        exact (looked e (grows.empty ▸ empty) head).mono grows.ways
    · exact .inr (.inl queued)

theorem Followed.pop {agenda : List Item} (followed : d.Followed g columns here [])
    (queued : d.agenda = i :: agenda) :
    ({ d with agenda } : Draft).Followed g columns here [i] := by
  have split {x : Item} (member : x ∈ d.agenda) : x ∈ [i] ∨ x ∈ agenda := by
    rw [queued] at member
    simpa using member
  have keep {x : Item} (kept : d.Kept columns here [] x) :
      ({ d with agenda } : Draft).Kept columns here [i] x := by
    refine ⟨kept.waiting, kept.active, fun finished => ?_⟩
    rcases kept.done finished with now | later | completed
    · cases now
    · exact (split later).imp_right .inl
    · exact .inr (.inr ⟨completed.empty, completed.column⟩)
  refine ⟨fun x member => keep (followed.ways x member),
    fun known member => keep (followed.predicted known member), fun x member next => ?_⟩
  rcases followed.active x member next with now | later | looked
  · cases now
  · exact (split later).imp_right .inl
  · exact .inr (.inr looked)

theorem Kept.settle (kept : d.Kept columns here [i] x) (more : i.rest ≠ []) :
    d.Kept columns here [] x := by
  refine ⟨kept.waiting, kept.active, fun finished => ?_⟩
  rcases kept.done finished with now | later
  · obtain rfl := List.mem_singleton.mp now
    exact absurd finished more
  · exact .inr later

/-- An item that waits for a terminal is followed up by the next token. -/
theorem Followed.skip {t : Terminal} {rest : List Symbol}
    (followed : d.Followed g columns here [i]) (next : i.rest = .terminal t :: rest) :
    d.Followed g columns here [] := by
  have more : i.rest ≠ [] := by simp [next]
  refine ⟨fun x member => (followed.ways x member).settle more,
    fun known member => (followed.predicted known member).settle more, ?_⟩
  intro n rest' x member next'
  rcases followed.active x member next' with now | later
  · obtain rfl := List.mem_singleton.mp now
    simp [next] at next'
  · exact .inr later

theorem Followed.complete (followed : d.Followed g columns here [i]) (done : i.rest = []) :
    (d.complete columns here i).Followed g columns here [] := by
  unfold Draft.complete
  simp only
  generalize middle : (if i.start == here then { d with empty := i :: d.empty } else d) = m
  have same : m.active = d.active ∧ m.agenda = d.agenda ∧ m.waiting = d.waiting ∧
      m.ways = d.ways ∧ m.predicted = d.predicted ∧ d.empty ⊆ m.empty ∧
      (∀ e ∈ m.empty, e ∈ d.empty ∨ e = i ∧ i.start = here) ∧ (i.start = here → i ∈ m.empty) := by
    rw [← middle]
    by_cases begins : i.start = here
    · simp [begins, or_comm]
    · simp [begins]
  obtain ⟨active, agenda, waiting, ways, predicted, empty, newEmpty, noted⟩ := same
  obtain ⟨grows, taken⟩ := takeAll_spec g here
    ((d.partners columns here i).map fun x => ({ left := x, right := .whole i } : Step)) m
  change ((List.map _ (d.partners columns here i)).foldl take m).Followed g columns here []
  generalize (List.map _ (d.partners columns here i)).foldl take m = last at grows taken
  have takes {x : Item} (partner : x ∈ d.partners columns here i) : last.Takes x i :=
    taken ⟨x, .whole i⟩ (List.mem_map_of_mem partner)
  have completed : last.Completed columns here i := by
    constructor
    · exact fun begins => ⟨i, grows.empty ▸ noted begins, rfl⟩
    · intro c earlier found x member awaits
      refine takes (List.mem_filter.mpr ⟨?_, awaits⟩)
      simpa [earlier, found] using member
  have keep {x : Item} (kept : d.Kept columns here [i] x) : last.Kept columns here [] x := by
    refine ⟨fun next => grows.waiting (waiting ▸ kept.waiting next),
      fun next => grows.active (active ▸ kept.active next), fun finished => ?_⟩
    rcases kept.done finished with now | later | before
    · obtain rfl := List.mem_singleton.mp now
      exact .inr (.inr completed)
    · exact .inr (.inl (grows.agenda (agenda ▸ later)))
    · exact .inr (.inr (before.mono (grows.empty ▸ empty) (ways ▸ grows.ways)))
  constructor
  · intro x member
    rcases grows.newWays x member with known | lists
    · exact keep (followed.ways x (ways ▸ known))
    · exact lists.kept
  · intro n p known member
    rcases grows.newPredicted known member with before | lists
    · exact keep (followed.predicted (predicted ▸ before) member)
    · exact lists.kept
  · intro n rest x member next
    rcases grows.newActive x member with known | queued
    · rw [active] at known
      rcases followed.active x known next with now | later | ⟨before, looked⟩
      · obtain rfl := List.mem_singleton.mp now
        rw [done] at next
        contradiction
      · exact .inr (.inl (grows.agenda (agenda ▸ later)))
      · refine .inr (.inr ⟨grows.predicted (predicted ▸ before), fun e member head => ?_⟩)
        rcases newEmpty e (grows.empty ▸ member) with known' | ⟨rfl, begins⟩
        · exact (looked e known' head).mono (ways ▸ grows.ways)
        · refine takes (List.mem_filter.mpr ⟨?_, awaits_iff.mpr ⟨rest, head ▸ next⟩⟩)
          simpa [begins] using known
    · exact .inr (.inl queued)

theorem complete_keeps (g : Grammar) (d : Draft) (columns : Array Column) (here : Nat) (i : Item) :
    d.ways.map Ways.item ⊆ (d.complete columns here i).ways.map Ways.item ∧
      ∀ n, d.predicted.contains n = true →
        (d.complete columns here i).predicted.contains n = true := by
  unfold Draft.complete
  simp only
  generalize middle : (if i.start == here then { d with empty := i :: d.empty } else d) = m
  have same : m.ways = d.ways ∧ m.predicted = d.predicted := by
    rw [← middle]
    split <;> exact ⟨rfl, rfl⟩
  rw [← same.1, ← same.2]
  have grows := (takeAll_spec g here
    ((d.partners columns here i).map fun x => ({ left := x, right := .whole i } : Step)) m).1
  exact ⟨grows.ways, fun _ => grows.predicted⟩

theorem mem_corners (g : Grammar) (n : Nonterminal) : n ∈ g.corners n := by
  simp [Grammar.corners, Grammar.reach]

theorem look_spec (g : Grammar) (here : Nat) (d : Draft) (i : Item) (n : Nonterminal) :
    Grows g here d (d.look g here i n) ∧ (d.look g here i n).predicted.contains n = true ∧
      ∀ e ∈ (d.look g here i n).empty, e.production.head = n → (d.look g here i n).Takes i e := by
  unfold Draft.look
  simp only
  generalize middle : (if d.predicted.contains n then d else d.predict g here (g.corners n)) = m
  have predicted : Grows g here d m ∧ m.predicted.contains n = true := by
    rw [← middle]
    split
    · rename_i known
      exact ⟨.refl d, known⟩
    · obtain ⟨grows, added⟩ := d.predict_spec g here (g.corners n)
      exact ⟨grows, added n (mem_corners g n)⟩
  obtain ⟨grows, known⟩ := predicted
  split
  · rename_i e found
    obtain ⟨grows', x, kept, alike⟩ := m.take_spec g here ⟨i, .whole e⟩
    refine ⟨grows.trans grows', grows'.predicted known, fun e' _ _ => ?_⟩
    exact ⟨x, kept, alike.trans (i.advance_alike _ _ _ _)⟩
  · rename_i none
    refine ⟨grows, known, fun e member head => ?_⟩
    exact absurd (by simpa using head) (List.find?_eq_none.mp none e member)

theorem Followed.look {n : Nonterminal} {rest : List Symbol}
    (followed : d.Followed g columns here [i]) (next : i.rest = .nonterminal n :: rest) :
    (d.look g here i n).Followed g columns here [] := by
  obtain ⟨grows, known, takes⟩ := d.look_spec g here i n
  replace followed := followed.grow grows
  have more : i.rest ≠ [] := by simp [next]
  refine ⟨fun x member => (followed.ways x member).settle more,
    fun known member => (followed.predicted known member).settle more, ?_⟩
  intro m rest' x member next'
  rcases followed.active x member next' with now | later
  · obtain rfl := List.mem_singleton.mp now
    rw [next] at next'
    cases next'
    exact .inr (.inr ⟨known, takes⟩)
  · exact .inr later

end Draft

end StyleSplit.Script
