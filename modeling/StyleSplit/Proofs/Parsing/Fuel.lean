import Mathlib.Data.List.Nodup
import Mathlib.Data.List.Perm.Subperm
import StyleSplit.Proofs.Parsing.Closure

/-! Closing a column has enough fuel. An item is put on the agenda when its spot, a place in
a production begun at some token, is noted for the first time, and there are no more spots
than there is fuel. -/
namespace StyleSplit.Script

variable {g : Grammar} {w : List Token} {here : Nat} {columns : Array Column}

/-- A place in a production that was begun at some token. -/
abbrev Spot := Nat × Production × Nat

/-- The spots of a column. -/
def Grammar.spots (g : Grammar) (here : Nat) : List Spot :=
  (List.range (here + 1)).flatMap fun start =>
    (Nonterminal.all.flatMap g.productions).flatMap fun p =>
      (List.range (p.body.length + 1)).map fun dot => (start, p, dot)

theorem Grammar.mem_spots {start dot : Nat} {p : Production} (member : p ∈ g.productions p.head)
    (begun : start ≤ here) (bound : dot ≤ p.body.length) : (start, p, dot) ∈ g.spots here := by
  simp only [spots, List.mem_flatMap, List.mem_range, List.mem_map, Nat.lt_succ_iff]
  exact ⟨start, begun, p, ⟨p.head, Nonterminal.mem_all _, member⟩, dot, bound, rfl⟩

theorem Grammar.length_spots (g : Grammar) (here : Nat) :
    (g.spots here).length = g.places * (here + 1) := by
  have total (ps : List Production) (sum : Nat) :
      ps.foldl (fun total p => total + p.body.length + 1) sum =
        sum + (ps.map fun p => p.body.length + 1).sum := by
    induction ps generalizing sum with
    | nil => rfl
    | cons p rest ih =>
      rw [List.foldl_cons, ih, List.map_cons, List.sum_cons]
      omega
  simp only [spots, places, total, List.length_flatMap, List.length_map, List.length_range,
    Nat.zero_add, List.map_const', List.sum_replicate_nat]
  exact Nat.mul_comm _ _

namespace Draft

variable {d d' : Draft} {i : Item}

/-- Whether a spot has been noted: with the nonterminals that are looked for at the start of
a production, behind it with the items that have found something. -/
def noted (d : Draft) (here : Nat) (spot : Spot) : Bool :=
  if spot.2.2 = 0 then spot.1 == here && d.predicted.contains spot.2.1.head
  else d.ways.any fun x => x.item.start == spot.1 && x.item.production == spot.2.1 &&
    x.item.dot == spot.2.2

/-- What is left to do for a column at most. -/
def load (g : Grammar) (here : Nat) (d : Draft) : Nat :=
  d.agenda.length + (g.spots here).countP fun spot => !d.noted here spot

theorem countP_split {α : Type} {p q : α → Bool} (l : List α) (less : ∀ a, q a = true → p a = true) :
    l.countP p = l.countP q + l.countP fun a => p a && !q a := by
  induction l with
  | nil => rfl
  | cons a rest ih =>
    simp only [List.countP_cons, ih]
    cases first : q a with
    | true => simp [less a first]; omega
    | false => simp; omega

/-- Every item that is added to the agenda takes a spot. -/
theorem load_le (spots : List Spot) (distinct : spots.Nodup)
    (fresh : ∀ s ∈ spots, s ∈ g.spots here ∧ d.noted here s = false ∧ d'.noted here s = true)
    (kept : ∀ s, d.noted here s = true → d'.noted here s = true)
    (agenda : d'.agenda.length ≤ d.agenda.length + spots.length) :
    d'.load g here ≤ d.load g here := by
  unfold load
  rw [countP_split (p := fun s => !d.noted here s) (q := fun s => !d'.noted here s)]
  · have part : spots ⊆ (g.spots here).filter fun s => !d.noted here s && !!d'.noted here s := by
      intro s member
      obtain ⟨known, before, after⟩ := fresh s member
      exact List.mem_filter.mpr ⟨known, by simp [before, after]⟩
    have count := (List.subperm_of_subset distinct part).length_le
    rw [← List.countP_eq_length_filter] at count
    omega
  · intro s
    cases before : d.noted here s with
    | true => simp [kept s before]
    | false => simp

theorem push_load (d : Draft) (i : Item) : (d.push i).ways = d.ways ∧
    (d.push i).predicted = d.predicted ∧ (d.push i).agenda.length ≤ d.agenda.length + 1 := by
  unfold push
  split <;> simp

theorem pushAll_load (items : List Item) (d : Draft) :
    (items.foldl push d).ways = d.ways ∧ (items.foldl push d).predicted = d.predicted ∧
      (items.foldl push d).agenda.length ≤ d.agenda.length + items.length := by
  induction items generalizing d with
  | nil => simp
  | cons i rest ih =>
    obtain ⟨ways, predicted, agenda⟩ := push_load d i
    obtain ⟨ways', predicted', agenda'⟩ := ih (d.push i)
    refine ⟨ways'.trans ways, predicted'.trans predicted, ?_⟩
    rw [List.foldl_cons, List.length_cons]
    omega

/-- A step that leads to a new item takes the spot of that item. -/
theorem take_load (sound : d.Sound g w here) {s : Step} (step : s.Sound g w here) :
    (d.take s).load g here ≤ d.load g here := by
  unfold take
  simp only
  rcases addStep_spec s.item s d.ways with
    ⟨front, x, back, steps, before, -, -, result⟩ | ⟨result, different⟩
  · rw [result]
    have same : ({ d with ways := front ++ { x with steps } :: back } : Draft).noted here =
        d.noted here := by
      funext spot
      simp [noted, before]
    exact Nat.le_of_eq (by simp only [load, same])
  · rw [result]
    have item := step.item
    obtain ⟨ways, predicted, agenda⟩ :=
      push_load { d with ways := { item := s.item, steps := [s] } :: d.ways } s.item
    have later : s.item.dot ≠ 0 := by
      obtain ⟨left, right⟩ := s
      cases right <;> exact Nat.succ_ne_zero _
    have bound : s.item.dot ≤ s.item.production.body.length := by
      rw [← item.body, item.dot]
      simp
    refine load_le [(s.item.start, s.item.production, s.item.dot)] (by simp) ?_ ?_ agenda
    · intro spot member
      obtain rfl := List.mem_singleton.mp member
      refine ⟨Grammar.mem_spots item.member item.start bound, ?_, ?_⟩
      · simp only [noted, if_neg later, List.any_eq_false, Bool.and_eq_true, beq_iff_eq, not_and,
          and_imp]
        intro x known start production dot
        refine different x known ⟨start, by rw [production], ?_⟩
        have rest := (sound.ways known).1.placed.rest
        rw [production, dot, ← item.placed.rest] at rest
        by_cases done : s.item.rest = []
        · exact .inl ⟨rest.trans done, done⟩
        · exact .inr ⟨by rwa [rest], done, dot, by rw [production]⟩
      · simp [noted, later, ways]
    · intro spot known
      unfold noted at known ⊢
      split at known
      · rename_i first
        rwa [if_pos first, predicted]
      · rename_i behind
        rw [if_neg behind, ways, List.any_cons, known, Bool.or_true]

theorem takeAll_load {steps : List Step} (sound : d.Sound g w here)
    (each : ∀ s ∈ steps, s.Sound g w here) :
    (steps.foldl take d).load g here ≤ d.load g here := by
  induction steps generalizing d with
  | nil => exact Nat.le_refl _
  | cons s rest ih =>
    have first := each s (by simp)
    have others := ih (sound.take first) fun other member => each other (by simp [member])
    exact Nat.le_trans others (take_load sound first)

theorem predict_load (ordered : g.Ordered) (distinct : ∀ n, (g.productions n).Nodup) (d : Draft)
    (heads : List Nonterminal) : (d.predict g here heads).load g here ≤ d.load g here := by
  unfold predict
  obtain ⟨⟨members, -⟩, single, fresh⟩ := NonterminalSet.addAll_spec heads d.predicted
  generalize d.predicted.addAll heads = result at members single fresh
  obtain ⟨new, predicted⟩ := result
  obtain ⟨ways, same, agenda⟩ := pushAll_load ((new.flatMap g.productions).map (Item.begin here))
    { d with predicted }
  refine load_le ((new.flatMap g.productions).map fun p => (here, p, 0)) ?_ ?_ ?_ ?_
  · refine List.Nodup.map (fun p q same => (Prod.mk.inj (Prod.mk.inj same).2).1) ?_
    refine List.nodup_flatMap.mpr ⟨fun n _ => distinct n, single.imp fun {m n} differ => ?_⟩
    intro p first last
    exact differ ((ordered.head first).symm.trans (ordered.head last))
  · intro spot member
    obtain ⟨p, known, rfl⟩ := List.mem_map.mp member
    obtain ⟨n, first, produced⟩ := List.mem_flatMap.mp known
    obtain rfl := ordered.head produced
    have after : predicted.contains p.head = true := (members _).mpr (.inr first)
    refine ⟨Grammar.mem_spots produced (Nat.le_refl _) (Nat.zero_le _), ?_, ?_⟩
    · simp [noted, fresh _ first]
    · simp [noted, same, after]
  · intro spot known
    unfold noted at known ⊢
    split at known
    · rename_i first
      obtain ⟨start, before⟩ := Bool.and_eq_true_iff.mp known
      rw [if_pos first, start, same, (members _).mpr (.inl before)]
      rfl
    · rename_i behind
      rwa [if_neg behind, ways]
  · simpa using agenda

/-- An empty column has all its spots left. -/
theorem start_load : start.load g here ≤ g.places * (here + 1) := by
  rw [← Grammar.length_spots, load, start, List.length_nil, Nat.zero_add]
  exact List.countP_le_length

theorem complete_load (sound : d.Sound g w here) (earlier : ColumnsSound g w columns)
    (item : i.Sound g w here) (done : i.rest = []) :
    (d.complete columns here i).load g here ≤ d.load g here := by
  unfold Draft.complete
  simp only
  generalize middle : (if i.start == here then { d with empty := i :: d.empty } else d) = m
  have same : m.Sound g w here ∧ m.load g here = d.load g here := by
    rw [← middle]
    split
    · rename_i begins
      refine ⟨{ sound with empty := fun member => ?_ }, rfl⟩
      rcases List.mem_cons.mp member with rfl | member
      · exact ⟨item, done, by simpa using begins⟩
      · exact sound.empty member
    · exact ⟨sound, rfl⟩
  rw [← same.2]
  refine takeAll_load same.1 fun s member => ?_
  obtain ⟨x, partner, rfl⟩ := List.mem_map.mp member
  obtain ⟨left, next⟩ := sound.partners earlier partner
  exact ⟨item, done, left, next⟩

theorem look_load (ordered : g.Ordered) (distinct : ∀ n, (g.productions n).Nodup)
    (sound : d.Sound g w here) {n : Nonterminal} {rest : List Symbol} (item : i.Sound g w here)
    (next : i.rest = .nonterminal n :: rest) : (d.look g here i n).load g here ≤ d.load g here := by
  unfold Draft.look
  simp only
  generalize middle : (if d.predicted.contains n then d else d.predict g here (g.corners n)) = m
  have same : m.Sound g w here ∧ m.load g here ≤ d.load g here := by
    rw [← middle]
    split
    · exact ⟨sound, Nat.le_refl _⟩
    · exact ⟨sound.predict ordered _, predict_load ordered distinct d _⟩
  obtain ⟨sound, less⟩ := same
  split
  · rename_i e found
    obtain ⟨whole, done, start⟩ := sound.empty (List.mem_of_find?_eq_some found)
    have head : e.production.head = n := by simpa using List.find?_some found
    refine Nat.le_trans (take_load sound ⟨whole, done, ?_, rest, ?_⟩) less
    · rw [start]
      exact item
    · rw [head]
      exact next
  · exact less

/-- With fuel for all that is left to do, nothing stays on the agenda. -/
theorem close_followed (ordered : g.Ordered) (distinct : ∀ n, (g.productions n).Nodup)
    (earlier : ColumnsSound g w columns) {fuel : Nat} (sound : d.Sound g w here)
    (followed : d.Followed g columns here []) (enough : d.load g here ≤ fuel) :
    (Draft.close g columns here fuel d).Followed g columns here [] ∧
      (Draft.close g columns here fuel d).agenda = [] ∧
      d.ways.map Ways.item ⊆ (Draft.close g columns here fuel d).ways.map Ways.item ∧
      ∀ n, d.predicted.contains n = true →
        (Draft.close g columns here fuel d).predicted.contains n = true := by
  induction fuel generalizing d with
  | zero =>
    have empty : d.agenda = [] := by
      rw [load] at enough
      exact List.eq_nil_of_length_eq_zero (by omega)
    exact ⟨followed, empty, List.Subset.refl _, fun _ known => known⟩
  | succ fuel ih =>
    unfold Draft.close
    split
    · rename_i empty
      exact ⟨followed, empty, List.Subset.refl _, fun _ known => known⟩
    rename_i i agenda queued
    have item : i.Sound g w here := sound.agenda (by rw [queued]; simp)
    have popped : ({ d with agenda } : Draft).Sound g w here :=
      { sound with agenda := fun member => sound.agenda (by rw [queued]; simp [member]) }
    have less : ({ d with agenda } : Draft).load g here ≤ fuel := by
      unfold load at enough ⊢
      rw [queued, List.length_cons] at enough
      have same : ({ d with agenda } : Draft).noted here = d.noted here := rfl
      rw [same]
      simp only
      omega
    replace followed := followed.pop queued
    split
    · rename_i done
      obtain ⟨ways, predicted⟩ :=
        complete_keeps g { d with agenda } columns here i
      obtain ⟨followed, none, ways', predicted'⟩ := ih (popped.complete earlier item done)
        (followed.complete done) (Nat.le_trans (complete_load popped earlier item done) less)
      exact ⟨followed, none, List.Subset.trans ways ways', fun n known => predicted' n (predicted n known)⟩
    · rename_i n rest next
      obtain ⟨grows, -⟩ := look_spec g here ({ d with agenda } : Draft) i n
      obtain ⟨followed, none, ways', predicted'⟩ := ih (popped.look ordered item next)
        (followed.look next) (Nat.le_trans (look_load ordered distinct popped item next) less)
      exact ⟨followed, none, List.Subset.trans grows.ways ways', fun n known => predicted' n (grows.predicted known)⟩
    · rename_i t rest next
      exact ih popped (followed.skip next) less

end Draft

end StyleSplit.Script
