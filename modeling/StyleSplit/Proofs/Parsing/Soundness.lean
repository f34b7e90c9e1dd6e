import Mathlib.Data.List.Forall2
import StyleSplit.Proofs.Parsing.Items

/-! The chart parser answers derivations only: what it returns is a valid derivation of
the start symbol whose tokens are the ones it was given. Soundness of every item is kept
by each operation on a column under construction, by the choice among derivations, and by
the step from one column to the next. -/
namespace StyleSplit.Script

variable {g : Grammar} {w : List Token} {here : Nat}

/-- Every item of a finished column is sound and waits for a symbol of its kind. -/
structure Column.Sound (g : Grammar) (w : List Token) (here : Nat) (c : Column) : Prop where
  active {i : Item} : i ∈ c.active → i.Sound g w here ∧ ∃ n rest, i.rest = .nonterminal n :: rest
  waiting {i : Item} : i ∈ c.waiting → i.Sound g w here ∧ ∃ t rest, i.rest = .terminal t :: rest

namespace Draft

/-- Every item of a column under construction is sound. -/
structure Sound (g : Grammar) (w : List Token) (here : Nat) (d : Draft) : Prop where
  agenda {i : Item} : i ∈ d.agenda → i.Sound g w here
  active {i : Item} : i ∈ d.active → i.Sound g w here ∧ ∃ n rest, i.rest = .nonterminal n :: rest
  waiting {i : Item} : i ∈ d.waiting → i.Sound g w here ∧ ∃ t rest, i.rest = .terminal t :: rest
  ways {x : Ways} : x ∈ d.ways → x.item.Sound g w here ∧
    ∀ s ∈ x.steps, s.Sound g w here ∧ s.item.Alike x.item
  empty {i : Item} : i ∈ d.empty → i.Sound g w here ∧ i.rest = [] ∧ i.start = here

theorem start_sound : start.Sound g w here := by
  constructor <;> simp [start]

variable {d : Draft}

theorem Sound.push (sound : d.Sound g w here) {i : Item} (item : i.Sound g w here) :
    (d.push i).Sound g w here := by
  unfold Draft.push
  split
  · rename_i t rest next
    exact { sound with
      waiting := fun member => by
        rcases List.mem_cons.mp member with rfl | member
        · exact ⟨item, t, rest, next⟩
        · exact sound.waiting member }
  · rename_i n rest next
    exact { sound with
      agenda := fun member => by
        rcases List.mem_cons.mp member with rfl | member
        · exact item
        · exact sound.agenda member
      active := fun member => by
        rcases List.mem_cons.mp member with rfl | member
        · exact ⟨item, n, rest, next⟩
        · exact sound.active member }
  · exact { sound with
      agenda := fun member => by
        rcases List.mem_cons.mp member with rfl | member
        · exact item
        · exact sound.agenda member }

theorem push_ways (d : Draft) (i : Item) : (d.push i).ways = d.ways := by
  unfold push
  split <;> rfl

/-- A step is added to the ways of an item like the one it leads to, and nothing else
changes; there is no such item when it is not added. -/
theorem addStep_spec (item : Item) (s : Step) (ways : List Ways) :
    (∃ front x back steps, ways = front ++ x :: back ∧ x.item.Alike item ∧
      (steps = x.steps ∨ steps = x.steps ++ [s]) ∧
      addStep item s ways = some (front ++ { x with steps } :: back)) ∨
    (addStep item s ways = none ∧ ∀ x ∈ ways, ¬ x.item.Alike item) := by
  induction ways with
  | nil => exact .inr ⟨rfl, by simp⟩
  | cons x rest ih =>
    unfold addStep
    by_cases alike : x.item.same item = true
    · rw [if_pos alike]
      refine .inl ⟨[], x, rest, if x.steps.any s.same then x.steps else x.steps ++ [s], rfl,
        Item.same_iff.mp alike, ?_, ?_⟩
      · split
        · exact .inl rfl
        · exact .inr rfl
      · split <;> rfl
    · rw [if_neg alike]
      rcases ih with ⟨front, y, back, steps, rfl, alike', added, result⟩ | ⟨none, different⟩
      · exact .inl ⟨x :: front, y, back, steps, rfl, alike', added, by rw [result]; rfl⟩
      · refine .inr ⟨by rw [none]; rfl, ?_⟩
        intro y member
        rcases List.mem_cons.mp member with rfl | member
        · exact fun h => alike (Item.same_iff.mpr h)
        · exact different y member

theorem Sound.take (sound : d.Sound g w here) {s : Step} (step : s.Sound g w here) :
    (d.take s).Sound g w here := by
  unfold Draft.take
  simp only
  rcases addStep_spec s.item s d.ways with
    ⟨front, x, back, steps, before, alike, added, result⟩ | ⟨result, _⟩
  · rw [result]
    refine { sound with ways := fun {y} member => ?_ }
    have known : x ∈ d.ways := by rw [before]; simp
    rcases List.mem_append.mp member with member | member
    · exact sound.ways (by rw [before]; simp [member])
    rcases List.mem_cons.mp member with rfl | member
    · refine ⟨(sound.ways known).1, fun other member => ?_⟩
      rcases added with rfl | rfl
      · exact (sound.ways known).2 other member
      · rcases List.mem_append.mp member with member | member
        · exact (sound.ways known).2 other member
        · obtain rfl := List.mem_singleton.mp member
          exact ⟨step, alike.symm⟩
    · exact sound.ways (by rw [before]; simp [member])
  · rw [result]
    refine Sound.push (d := { d with ways := { item := s.item, steps := [s] } :: d.ways })
      { sound with ways := fun {y} member => ?_ } step.item
    rcases List.mem_cons.mp member with rfl | member
    · refine ⟨step.item, fun other member => ?_⟩
      obtain rfl := List.mem_singleton.mp member
      exact ⟨step, .refl _⟩
    · exact sound.ways member

theorem Sound.takeAll {steps : List Step} (sound : d.Sound g w here)
    (each : ∀ s ∈ steps, s.Sound g w here) : (steps.foldl Draft.take d).Sound g w here := by
  induction steps generalizing d with
  | nil => exact sound
  | cons s rest ih =>
    exact ih (sound.take (each s (by simp))) fun other member => each other (by simp [member])

theorem Sound.pushAll {items : List Item} (sound : d.Sound g w here)
    (each : ∀ i ∈ items, i.Sound g w here) : (items.foldl Draft.push d).Sound g w here := by
  induction items generalizing d with
  | nil => exact sound
  | cons i rest ih =>
    exact ih (sound.push (each i (by simp))) fun other member => each other (by simp [member])

theorem Sound.predict (ordered : g.Ordered) (sound : d.Sound g w here)
    (heads : List Nonterminal) : (d.predict g here heads).Sound g w here := by
  unfold Draft.predict
  refine Sound.pushAll { sound with } ?_
  intro i member
  obtain ⟨p, produced, rfl⟩ := List.mem_map.mp member
  obtain ⟨n, _, produced⟩ := List.mem_flatMap.mp produced
  exact Item.begin_sound ordered produced

/-- The items of the column before `here`, or of this one, that a finished item takes on. -/
def partners (d : Draft) (columns : Array Column) (here : Nat) (i : Item) : List Item :=
  (if i.start == here then d.active.reverse
    else match columns[i.start]? with
      | some column => column.active
      | none => []).filter (·.awaits i.production.head)

theorem awaits_iff {i : Item} {n : Nonterminal} :
    i.awaits n = true ↔ ∃ rest, i.rest = .nonterminal n :: rest := by
  unfold Item.awaits
  split
  · rename_i m rest next
    simp [next]
  · rename_i other
    simp only [Bool.false_eq_true, false_iff, not_exists]
    exact fun rest next => other n rest next

theorem reads_iff {i : Item} {t : Terminal} :
    i.reads t = true ↔ ∃ rest, i.rest = .terminal t :: rest := by
  unfold Item.reads
  split
  · rename_i u rest next
    simp [next]
  · rename_i other
    simp only [Bool.false_eq_true, false_iff, not_exists]
    exact fun rest next => other t rest next

/-- The columns already finished are sound, each for its own place. -/
def ColumnsSound (g : Grammar) (w : List Token) (columns : Array Column) : Prop :=
  ∀ {k : Nat} {c : Column}, columns[k]? = some c → c.Sound g w k

variable {columns : Array Column}

theorem Sound.partners (sound : d.Sound g w here) (earlier : ColumnsSound g w columns)
    {i x : Item} (partner : x ∈ d.partners columns here i) :
    x.Sound g w i.start ∧ ∃ rest, x.rest = .nonterminal i.production.head :: rest := by
  obtain ⟨member, awaits⟩ := List.mem_filter.mp partner
  refine ⟨?_, awaits_iff.mp awaits⟩
  split at member
  · rename_i begins
    have begins : i.start = here := by simpa using begins
    exact begins ▸ (sound.active (List.mem_reverse.mp member)).1
  · split at member
    · rename_i column found
      exact ((earlier found).active member).1
    · contradiction

theorem Sound.complete (sound : d.Sound g w here) (earlier : ColumnsSound g w columns)
    {i : Item} (item : i.Sound g w here) (done : i.rest = []) :
    (d.complete columns here i).Sound g w here := by
  have steps : ∀ s ∈ (d.partners columns here i).map
      (fun x => ({ left := x, right := .whole i } : Step)), s.Sound g w here := by
    intro s member
    obtain ⟨x, partner, rfl⟩ := List.mem_map.mp member
    obtain ⟨left, next⟩ := sound.partners earlier partner
    exact ⟨item, done, left, next⟩
  unfold Draft.complete
  simp only
  refine Sound.takeAll ?_ steps
  split
  · rename_i begins
    exact { sound with
      empty := fun member => by
        rcases List.mem_cons.mp member with rfl | member
        · exact ⟨item, done, by simpa using begins⟩
        · exact sound.empty member }
  · exact sound

theorem Sound.look (ordered : g.Ordered) (sound : d.Sound g w here) {i : Item} {n : Nonterminal}
    {rest : List Symbol} (item : i.Sound g w here) (next : i.rest = .nonterminal n :: rest) :
    (d.look g here i n).Sound g w here := by
  unfold Draft.look
  simp only
  have predicted : (if d.predicted.contains n then d else d.predict g here (g.corners n)).Sound
      g w here := by
    split
    · exact sound
    · exact sound.predict ordered _
  split
  · rename_i e found
    obtain ⟨whole, done, start⟩ := predicted.empty (List.mem_of_find?_eq_some found)
    have head : e.production.head = n := by simpa using List.find?_some found
    refine predicted.take ⟨whole, done, ?_, rest, ?_⟩
    · rw [start]; exact item
    · rw [head]; exact next
  · exact predicted

theorem Sound.close (ordered : g.Ordered) (earlier : ColumnsSound g w columns) (fuel : Nat)
    (sound : d.Sound g w here) : (Draft.close g columns here fuel d).Sound g w here := by
  induction fuel generalizing d with
  | zero => exact sound
  | succ fuel ih =>
    unfold Draft.close
    split
    · exact sound
    · rename_i i agenda queued
      have item : i.Sound g w here := sound.agenda (by rw [queued]; simp)
      have popped : ({ d with agenda } : Draft).Sound g w here :=
        { sound with agenda := fun member => sound.agenda (by rw [queued]; simp [member]) }
      refine ih ?_
      split
      · rename_i done
        exact popped.complete earlier item done
      · rename_i n rest next
        exact popped.look ordered item next
      · exact popped

end Draft

/-! ### The choice among derivations -/

namespace Draft

theorem choose_eq (best : Option Item) (i : Item) : choose best i = some i ∨ choose best i = best := by
  cases best with
  | none => exact .inl rfl
  | some best =>
    unfold choose
    simp only
    split
    · exact .inl rfl
    · exact .inr rfl

/-- An item that may take the place of another: sound, and standing for the same thing. -/
def Fits (g : Grammar) (w : List Token) (here : Nat) (i : Item) (best : Item) : Prop :=
  best.Sound g w here ∧ best.Alike i

theorem fits_choose {i x : Item} {best : Option Item} (fits : ∀ b ∈ best, Fits g w here i b)
    (item : Fits g w here i x) : ∀ b ∈ choose best x, Fits g w here i b := by
  intro b member
  rcases choose_eq best x with same | same
  · rw [same, Option.mem_some_iff] at member
    exact member ▸ item
  · exact fits b (same ▸ member)

/-- The ways of a column, apart from the draft they come from. -/
def WaysSound (g : Grammar) (w : List Token) (here : Nat) (ways : List Ways) : Prop :=
  ∀ x ∈ ways, x.item.Sound g w here ∧ ∀ s ∈ x.steps, s.Sound g w here ∧ s.item.Alike x.item

/-- A step may be retaken with other derivations of both of its parts. -/
theorem Step.Sound.replace (ordered : g.Ordered) {left left' right right' : Item}
    (sound : (⟨left, .whole right⟩ : Step).Sound g w here)
    (first : Fits g w right.start left left') (last : Fits g w here right right') :
    (⟨left', .whole right'⟩ : Step).Sound g w here ∧
      (⟨left', .whole right'⟩ : Step).item.Alike (⟨left, .whole right⟩ : Step).item := by
  obtain ⟨_, done, leftSound, rest, next⟩ := sound
  obtain ⟨start, head, ends⟩ := last.2
  have done' : right'.rest = [] := by
    rcases ends with ⟨h, _⟩ | ⟨_, h, _⟩
    · exact h
    · exact absurd done h
  have more : left.rest ≠ [] := by
    change left.rest = _ at next
    simp [next]
  have more' : left'.rest ≠ [] := by
    rcases first.2.2.2 with ⟨_, h⟩ | ⟨h, _⟩
    · exact absurd h more
    · exact h
  obtain ⟨_, _, same⟩ := first.2.under_way ordered first.1.placed leftSound.placed more'
  refine ⟨⟨last.1, done', start ▸ first.1, rest, ?_⟩, ?_⟩
  · change left'.rest = _
    rw [same, head]
    exact next
  · exact first.2.advance ordered first.1.placed leftSound.placed more' _ _ _ _

theorem settle_fits (ordered : g.Ordered) {ways : List Ways} (sound : WaysSound g w here ways)
    (fuel : Nat) {i : Item} {settled : List Item} (item : i.Sound g w here)
    (each : ∀ x ∈ settled, x.Sound g w here) :
    Fits g w here i (settle here ways fuel i settled).1 ∧
      ∀ x ∈ (settle here ways fuel i settled).2, x.Sound g w here := by
  induction fuel generalizing i settled with
  | zero => exact ⟨⟨item, .refl _⟩, each⟩
  | succ fuel ih =>
    unfold settle
    split
    · rename_i best found
      have alike := Item.same_iff.mp (List.find?_some found)
      exact ⟨⟨each best (List.mem_of_find?_eq_some found), alike.symm⟩, each⟩
    split
    · exact ⟨⟨item, .refl _⟩, each⟩
    rename_i x found
    have same : x.item.same i = true := List.find?_some (p := fun x : Ways => x.item.same i) found
    have alike := Item.same_iff.mp same
    have steps := (sound x (List.mem_of_find?_eq_some found)).2
    simp only
    generalize after : x.steps.foldl _ (none, settled) = final
    -- The best derivation so far is like the item, and what is settled stays sound.
    have result : (∀ b ∈ final.1, Fits g w here i b) ∧ ∀ x ∈ final.2, x.Sound g w here := by
      rw [← after]
      refine List.foldlRecOn (motive := fun r : Option Item × List Item =>
        (∀ b ∈ r.1, Fits g w here i b) ∧ ∀ x ∈ r.2, x.Sound g w here) x.steps _
        ⟨by simp, each⟩ ?_
      rintro ⟨best, settled⟩ ⟨fits, each⟩ ⟨left, right⟩ member
      obtain ⟨stepSound, stepAlike⟩ := steps _ member
      replace stepAlike := stepAlike.trans alike
      cases right with
      | token t => exact ⟨fits_choose fits ⟨stepSound.item, stepAlike⟩, each⟩
      | whole right =>
        obtain ⟨rightSound, _, leftSound, _⟩ := id stepSound
        dsimp only
        -- The part before the step is settled too when it stands in this column.
        generalize before : (if right.start == here then settle here ways fuel left settled
          else (left, settled)) = first
        have fitsLeft : Fits g w right.start left first.1 ∧ ∀ x ∈ first.2, x.Sound g w here := by
          rw [← before]
          split
          · rename_i begins
            have begins : right.start = here := by simpa using begins
            exact begins ▸ ih (begins ▸ leftSound) each
          · exact ⟨⟨leftSound, .refl _⟩, each⟩
        obtain ⟨left', settled'⟩ := first
        have fitsRight := ih rightSound fitsLeft.2
        generalize settle here ways fuel right settled' = last at fitsRight
        obtain ⟨right', settled''⟩ := last
        obtain ⟨retaken, retakenAlike⟩ :=
          Step.Sound.replace ordered stepSound fitsLeft.1 fitsRight.1
        exact ⟨fits_choose fits ⟨retaken.item, retakenAlike.trans stepAlike⟩, fitsRight.2⟩
    obtain ⟨best, settled'⟩ := final
    have chosen : Fits g w here i (best.getD i) := by
      cases best with
      | none => exact ⟨item, .refl _⟩
      | some b => exact result.1 b rfl
    refine ⟨chosen, fun y member => ?_⟩
    rcases List.mem_cons.mp member with rfl | member
    · exact chosen.1
    · exact result.2 y member

/-- Settling leaves every item in its place, with a derivation of its own. -/
theorem settleAll_fits (ordered : g.Ordered) {ways : List Ways} (sound : WaysSound g w here ways)
    {items settled : List Item} (all : ∀ i ∈ items, i.Sound g w here)
    (each : ∀ x ∈ settled, x.Sound g w here) :
    List.Forall₂ (Fits g w here) items (settleAll here ways items settled).1 ∧
      ∀ x ∈ (settleAll here ways items settled).2, x.Sound g w here := by
  induction items generalizing settled with
  | nil => exact ⟨.nil, each⟩
  | cons i rest ih =>
    have item := all i (by simp)
    have others := fun other member => all other (List.mem_cons_of_mem i member)
    unfold settleAll
    split
    · obtain ⟨fits, each⟩ := ih others each
      exact ⟨.cons ⟨item, .refl _⟩ fits, each⟩
    · obtain ⟨best, each⟩ := settle_fits ordered sound (ways.length + 1) item each
      obtain ⟨fits, each⟩ := ih others each
      exact ⟨.cons best fits, each⟩

theorem Sound.waysSound {d : Draft} (sound : d.Sound g w here) : WaysSound g w here d.ways :=
  fun _ member => sound.ways member

/-- A finished column holds the items of the draft, each with the derivation chosen for it. -/
theorem column_fits (ordered : g.Ordered) {d : Draft} (sound : d.Sound g w here) :
    List.Forall₂ (Fits g w here) d.active.reverse (d.column here).active ∧
      List.Forall₂ (Fits g w here) d.waiting.reverse (d.column here).waiting := by
  obtain ⟨active, each⟩ := settleAll_fits ordered sound.waysSound
    (fun i member => (sound.active (List.mem_reverse.mp member)).1)
    (fun _ member => absurd member List.not_mem_nil)
  obtain ⟨waiting, _⟩ := settleAll_fits ordered sound.waysSound
    (fun i member => (sound.waiting (List.mem_reverse.mp member)).1) each
  exact ⟨active, waiting⟩

/-- An item takes the symbol it waits for along with it when it is settled. -/
theorem Fits.next (ordered : g.Ordered) {i best : Item} (fits : Fits g w here i best)
    (item : i.Sound g w here) {x : Symbol} {rest : List Symbol} (next : i.rest = x :: rest) :
    best.rest = x :: rest := by
  have more : i.rest ≠ [] := by simp [next]
  exact ((fits.2.symm.under_way ordered item.placed fits.1.placed more).2.2).symm.trans next

theorem Sound.column (ordered : g.Ordered) {d : Draft} (sound : d.Sound g w here) :
    (d.column here).Sound g w here := by
  obtain ⟨active, waiting⟩ := column_fits ordered sound
  constructor
  · intro i member
    obtain ⟨x, known, fits⟩ := mem_of_forall₂ active member
    obtain ⟨item, n, rest, next⟩ := sound.active (List.mem_reverse.mp known)
    exact ⟨fits.1, n, rest, fits.next ordered item next⟩
  · intro i member
    obtain ⟨x, known, fits⟩ := mem_of_forall₂ waiting member
    obtain ⟨item, t, rest, next⟩ := sound.waiting (List.mem_reverse.mp known)
    exact ⟨fits.1, t, rest, fits.next ordered item next⟩

end Draft

theorem Column.Sound.read {c : Column} (sound : c.Sound g w here) {t : Token}
    (next : w[here]? = some t) : (c.read t).Sound g w (here + 1) := by
  refine Draft.Sound.takeAll Draft.start_sound fun s member => ?_
  obtain ⟨i, fitting, rfl⟩ := List.mem_map.mp member
  obtain ⟨waits, reads⟩ := List.mem_filter.mp fitting
  exact ⟨here, rfl, next, (sound.waiting waits).1, Draft.reads_iff.mp reads⟩

theorem ColumnsSound.push {columns : Array Column} (sound : Draft.ColumnsSound g w columns)
    {c : Column} (last : c.Sound g w columns.size) :
    Draft.ColumnsSound g w (columns.push c) := by
  intro k other found
  rw [Array.getElem?_push] at found
  split at found
  · rename_i same
    cases found
    exact same ▸ last
  · exact sound found

namespace Grammar

theorem whole?_sound (ordered : g.Ordered) {d : Draft} (sound : d.Sound g w here)
    {n : Nonterminal} {tree : Tree} (found : d.whole? here n = some tree) :
    tree.valid g = true ∧ tree.symbol = .nonterminal n ∧ tree.word = segment w 0 here := by
  unfold Draft.whole? at found
  simp only at found
  split at found
  · rename_i i known
    have wanted := List.find?_some known
    simp only [Bool.and_eq_true, List.isEmpty_iff, beq_iff_eq, and_assoc] at wanted
    obtain ⟨done, head, begins⟩ := wanted
    have item : i.Sound g w here := by
      rcases List.mem_append.mp (List.mem_of_find?_eq_some known) with member | member
      · obtain ⟨x, way, rfl⟩ := List.mem_map.mp member
        exact (sound.ways way).1
      · exact (sound.empty member).1
    obtain ⟨⟨chosen, alike⟩, _⟩ := Draft.settle_fits ordered sound.waysSound (d.ways.length + 1)
      item (fun _ member => absurd member List.not_mem_nil)
    simp only [Option.some.injEq] at found
    subst found
    generalize (Draft.settle here d.ways (d.ways.length + 1) i []).1 = best at chosen alike
    have done' : best.rest = [] := by
      rcases alike.2.2 with ⟨h, _⟩ | ⟨_, h, _⟩
      · exact h
      · exact absurd done h
    refine ⟨chosen.tree_valid done', ?_, ?_⟩
    · rw [Item.tree, Tree.symbol, alike.2.1, head]
    · rw [chosen.tree_word, alike.1, begins]
  · contradiction

theorem derive_sound (ordered : g.Ordered) {places : Nat} {columns : Array Column} {d : Draft}
    {tokens : List Token} {tree : Tree} (size : columns.size = here)
    (earlier : Draft.ColumnsSound g w columns) (sound : d.Sound g w here)
    (left : tokens = w.drop here) (bound : here ≤ w.length)
    (derived : g.derive places columns here d tokens = .ok tree) :
    tree.valid g = true ∧ tree.symbol = .nonterminal g.start ∧ tree.word = w := by
  induction tokens generalizing columns here d with
  | nil =>
    have all : here = w.length := by
      have := List.drop_eq_nil_iff.mp left.symm
      omega
    have closed := sound.close ordered earlier (places * (here + 1))
    unfold derive at derived
    simp only at derived
    split at derived
    · rename_i found
      cases derived
      have whole := whole?_sound ordered closed found
      rwa [all, segment_all] at whole
    · contradiction
  | cons t rest ih =>
    have next : w[here]? = some t := by rw [← List.head?_drop, ← left]; rfl
    have shorter : rest = w.drop (here + 1) := by rw [← List.tail_drop, ← left]; rfl
    have closed := sound.close ordered earlier (places * (here + 1))
    have column := closed.column ordered
    unfold derive at derived
    simp only at derived
    split at derived
    · contradiction
    · refine ih (by simp [size]) (ColumnsSound.push earlier (size ▸ column)) (column.read next)
        shorter ?_ derived
      exact (List.getElem?_eq_some_iff.mp next).1

/-- What the parser answers derives the tokens from the start symbol. -/
theorem parse_sound (ordered : g.Ordered) {tokens : List Token} {tree : Tree}
    (parsed : g.parse tokens = .ok tree) :
    tree.valid g = true ∧ tree.symbol = .nonterminal g.start ∧ tree.word = tokens := by
  refine derive_sound (w := tokens) ordered rfl ?_ (Draft.start_sound.predict ordered _) rfl
    (Nat.zero_le _) parsed
  intro k c found
  simp at found

end Grammar

end StyleSplit.Script
