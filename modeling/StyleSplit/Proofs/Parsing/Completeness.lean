import StyleSplit.Proofs.Parsing.Fuel
import StyleSplit.Proofs.Parsing.UnderWay

/-! The chart parser finds a derivation of every list of tokens that has one. A closed column
holds an item for every production that is under way at its place; so the tokens of a
derivation are read one after the other, and the start symbol is finished behind the last
one. -/
namespace StyleSplit.Script

variable {g : Grammar} {w : List Token} {start dot here : Nat} {columns : Array Column}
  {p : Production} {x : Item}

theorem Grammar.UnderWay.member (ordered : g.Ordered) (way : g.UnderWay w start p dot here) :
    p ∈ g.productions p.head := by
  induction way with
  | start member => rwa [ordered.head member]
  | predict _ _ member => rwa [ordered.head member]
  | read _ _ _ ih => exact ih
  | finish _ _ _ ih => exact ih

theorem Grammar.UnderWay.ahead (way : g.UnderWay w start p dot here) : start ≤ here := by
  induction way with
  | start | predict => exact Nat.le_refl _
  | read _ _ _ ih => exact Nat.le_succ_of_le ih
  | finish _ _ _ ih ih' => exact Nat.le_trans ih ih'

namespace Item

/-- The item that stands for the first symbols of a production. -/
def place (start : Nat) (p : Production) (dot : Nat) : Item :=
  { production := p, dot, rest := p.body.drop dot, start, found := [], priority := 0 }

theorem place_placed (member : p ∈ g.productions p.head) : (place start p dot).Placed g :=
  ⟨member, rfl⟩

theorem begin_alike (p : Production) : (Item.begin here p).Alike (place here p 0) := by
  refine ⟨rfl, rfl, ?_⟩
  by_cases empty : p.body = []
  · exact .inl ⟨empty, empty⟩
  · exact .inr ⟨empty, empty, rfl, rfl⟩

theorem place_next (start : Nat) {symbol : Symbol} (next : p.body[dot]? = some symbol) :
    (place start p dot).rest = symbol :: p.body.drop (dot + 1) := by
  obtain ⟨bound, same⟩ := List.getElem?_eq_some_iff.mp next
  rw [place, List.drop_eq_getElem_cons bound, same]

theorem Alike.next (ordered : g.Ordered) (alike : x.Alike (place start p dot))
    (placed : x.Placed g) (member : p ∈ g.productions p.head) {symbol : Symbol}
    (next : p.body[dot]? = some symbol) : x.rest = symbol :: p.body.drop (dot + 1) := by
  have rest := place_next start next
  have more : (place start p dot).rest ≠ [] := by simp [rest]
  exact (alike.symm.under_way ordered (place_placed member) placed more).2.2.symm.trans rest

/-- An item that takes its next symbol comes to the next place. -/
theorem Alike.advance_place (ordered : g.Ordered) (alike : x.Alike (place start p dot))
    (placed : x.Placed g) (member : p ∈ g.productions p.head) {symbol : Symbol}
    (next : p.body[dot]? = some symbol) (t : Tree) (priority : Int) :
    (x.advance t priority).Alike (place start p (dot + 1)) := by
  have more : x.rest ≠ [] := by simp [alike.next ordered placed member next]
  refine (alike.advance ordered placed (place_placed member) more t t priority 0).trans ?_
  have rest : (place start p dot).rest.tail = p.body.drop (dot + 1) := by
    rw [place_next start next]
    rfl
  refine ⟨rfl, rfl, ?_⟩
  by_cases done : p.body.drop (dot + 1) = []
  · exact .inl ⟨rest.trans done, done⟩
  · exact .inr ⟨fun h => done (rest.symm.trans h), done, rfl, rfl⟩

end Item

/-- Every production that is under way at the place of a finished column has an item there. -/
structure Column.Complete (g : Grammar) (w : List Token) (here : Nat) (c : Column) : Prop where
  active {start dot : Nat} {p : Production} {n : Nonterminal} : g.UnderWay w start p dot here →
    p.body[dot]? = some (.nonterminal n) → ∃ x ∈ c.active, x.Alike (Item.place start p dot)
  waiting {start dot : Nat} {p : Production} {t : Terminal} : g.UnderWay w start p dot here →
    p.body[dot]? = some (.terminal t) → ∃ x ∈ c.waiting, x.Alike (Item.place start p dot)

namespace Draft

variable {d : Draft}

/-- An item has been noted, up to the derivation it holds. -/
def Holds (here : Nat) (d : Draft) (i : Item) : Prop :=
  (∃ x ∈ d.ways, x.item.Alike i) ∨
    i.dot = 0 ∧ i.start = here ∧ d.predicted.contains i.production.head = true

/-- A column in which everything has been followed up, with the tokens read up to it. -/
structure Closed (g : Grammar) (w : List Token) (columns : Array Column) (here : Nat)
    (d : Draft) : Prop where
  sound : d.Sound g w here
  followed : d.Followed g columns here []
  agenda : d.agenda = []
  started : here = 0 → d.predicted.contains g.start = true
  read {before : Nat} {c : Column} {t : Token} : here = before + 1 → columns[before]? = some c →
    w[before]? = some t → ∀ x ∈ c.waiting, x.reads t.terminal = true →
      ∃ y ∈ d.ways, y.item.Alike (x.advance (.leaf t) 0)

/-- The columns before a place are complete. -/
def ColumnsComplete (g : Grammar) (w : List Token) (columns : Array Column) : Prop :=
  ∀ k < columns.size, ∃ c, columns[k]? = some c ∧ c.Complete g w k

theorem Closed.kept (closed : d.Closed g w columns here) (member : p ∈ g.productions p.head)
    (holds : d.Holds here (Item.place start p dot)) :
    ∃ x : Item, x.Alike (Item.place start p dot) ∧ x.Placed g ∧ d.Kept columns here [] x := by
  obtain ⟨x, known, alike⟩ | ⟨first, begins, predicted⟩ := holds
  · have kept := closed.followed.ways x.item (List.mem_map_of_mem known)
    exact ⟨x.item, alike, (closed.sound.ways known).1.placed, kept⟩
  · obtain rfl : dot = 0 := first
    obtain rfl : start = here := begins
    exact ⟨Item.begin start p, Item.begin_alike p, ⟨member, rfl⟩,
      closed.followed.predicted predicted member⟩

theorem Closed.active (closed : d.Closed g w columns here) (ordered : g.Ordered)
    (member : p ∈ g.productions p.head) (holds : d.Holds here (Item.place start p dot))
    {n : Nonterminal} (next : p.body[dot]? = some (.nonterminal n)) :
    ∃ x ∈ d.active, x.Alike (Item.place start p dot) ∧ x.Placed g ∧
      d.predicted.contains n = true ∧ ∀ e ∈ d.empty, e.production.head = n → d.Takes x e := by
  obtain ⟨x, alike, placed, kept⟩ := closed.kept member holds
  have rest := alike.next ordered placed member next
  have known := kept.active rest
  rcases closed.followed.active x known rest with now | later | looked
  · cases now
  · rw [closed.agenda] at later
    cases later
  · exact ⟨x, known, alike, placed, looked⟩

theorem Closed.completed (closed : d.Closed g w columns here) (member : p ∈ g.productions p.head)
    (holds : d.Holds here (Item.place start p p.body.length)) :
    ∃ x : Item, x.start = start ∧ x.production.head = p.head ∧ x.rest = [] ∧
      d.Completed columns here x := by
  obtain ⟨x, alike, -, kept⟩ := closed.kept member holds
  have ended : (Item.place start p p.body.length).rest = [] := List.drop_length
  have done : x.rest = [] := by
    rcases alike.2.2 with ⟨done, -⟩ | ⟨-, more, -⟩
    · exact done
    · exact absurd ended more
  rcases kept.done done with now | later | completed
  · cases now
  · rw [closed.agenda] at later
    cases later
  · exact ⟨x, alike.1, alike.2.1, done, completed⟩

/-- A closed column holds whatever is under way at its place. -/
theorem Closed.holds (closed : d.Closed g w columns here) (ordered : g.Ordered)
    (size : columns.size = here) (earlier : ColumnsSound g w columns)
    (complete : ColumnsComplete g w columns) {last : Nat}
    (way : g.UnderWay w start p dot last) (same : last = here) :
    d.Holds here (Item.place start p dot) := by
  induction way with
  | @start p member =>
    have head := ordered.head member
    exact .inr ⟨rfl, same, by rw [Item.place, head]; exact closed.started same.symm⟩
  | @predict start dot here' p q n way next member ih =>
    obtain ⟨-, -, -, -, predicted, -⟩ := closed.active ordered (way.member ordered) (ih same) next
    exact .inr ⟨rfl, same, by rw [Item.place, ordered.head member]; exact predicted⟩
  | @read start dot before p t way next token ih =>
    have bound : before < columns.size := by omega
    obtain ⟨c, found, column⟩ := complete before bound
    obtain ⟨x, known, alike⟩ := column.waiting way next
    have placed := ((earlier found).waiting known).1.placed
    have member := way.member ordered
    have rest := alike.next ordered placed member next
    obtain ⟨y, taken, reached⟩ := closed.read same.symm found token x known
      (reads_iff.mpr ⟨_, rest⟩)
    exact .inl ⟨y, taken, reached.trans (alike.advance_place ordered placed member next _ _)⟩
  | @finish start dot middle here' p q way next done ih ih' =>
    obtain rfl := same
    have member := way.member ordered
    obtain ⟨x, begins, head, -, completed⟩ := closed.completed (done.member ordered) (ih' rfl)
    by_cases now : middle = here'
    · obtain ⟨y, -, alike, placed, -, looked⟩ := closed.active ordered member (ih now) next
      obtain ⟨e, empty, same⟩ := completed.empty (begins.trans now)
      obtain ⟨z, taken, reached⟩ := looked e empty (same.trans head)
      exact .inl ⟨z, taken, reached.trans (alike.advance_place ordered placed member next _ _)⟩
    · have bound : middle < columns.size := by
        have := done.ahead
        omega
      obtain ⟨c, found, column⟩ := complete middle bound
      obtain ⟨y, known, alike⟩ := column.active way next
      have placed := ((earlier found).active known).1.placed
      have rest := alike.next ordered placed member next
      obtain ⟨z, taken, reached⟩ := completed.column (by rwa [begins]) (by rwa [begins]) y known
        (awaits_iff.mpr ⟨_, by rw [head]; exact rest⟩)
      exact .inl ⟨z, taken, reached.trans (alike.advance_place ordered placed member next _ _)⟩

theorem partner_of_mem {xs : List Item} {ys : List Item}
    (fits : List.Forall₂ (Fits g w here) xs ys) (member : x ∈ xs) : ∃ y ∈ ys, y.Alike x := by
  obtain ⟨y, known, fit⟩ := mem_of_forall₂ fits.flip member
  exact ⟨y, known, fit.2⟩

theorem Closed.column (closed : d.Closed g w columns here) (ordered : g.Ordered)
    (size : columns.size = here) (earlier : ColumnsSound g w columns)
    (complete : ColumnsComplete g w columns) : (d.column here).Complete g w here := by
  obtain ⟨active, waiting⟩ := column_fits ordered closed.sound
  constructor
  · intro start dot p n way next
    have holds := closed.holds ordered size earlier complete way rfl
    obtain ⟨x, known, alike, -⟩ := closed.active ordered (way.member ordered) holds next
    obtain ⟨y, settled, same⟩ := partner_of_mem active (List.mem_reverse.mpr known)
    exact ⟨y, settled, same.trans alike⟩
  · intro start dot p t way next
    have member := way.member ordered
    have holds := closed.holds ordered size earlier complete way rfl
    obtain ⟨x, alike, placed, kept⟩ := closed.kept member holds
    have known := kept.waiting (alike.next ordered placed member next)
    obtain ⟨y, settled, same⟩ := partner_of_mem waiting (List.mem_reverse.mpr known)
    exact ⟨y, settled, same.trans alike⟩

/-- The start symbol is found once one of its productions has come to its end. -/
theorem Closed.whole (closed : d.Closed g w columns here) (member : p ∈ g.productions p.head)
    (holds : d.Holds here (Item.place 0 p p.body.length)) :
    ∃ tree, d.whole? here p.head = some tree := by
  have found : ∃ x ∈ d.ways.map Ways.item ++ d.empty,
      (x.rest.isEmpty && x.production.head == p.head && x.start == 0) = true := by
    obtain ⟨x, known, alike⟩ | ⟨-, begins, -⟩ := id holds
    · have ended : (Item.place 0 p p.body.length).rest = [] := List.drop_length
      have done : x.item.rest = [] := by
        rcases alike.2.2 with ⟨done, -⟩ | ⟨-, more, -⟩
        · exact done
        · exact absurd ended more
      refine ⟨x.item, List.mem_append_left _ (List.mem_map_of_mem known), ?_⟩
      have head : x.item.production.head = p.head := alike.2.1
      have start : x.item.start = 0 := alike.1
      simp [done, head, start]
    · obtain ⟨x, start, head, -, completed⟩ := closed.completed member holds
      obtain ⟨e, empty, same⟩ := completed.empty (start.trans begins)
      obtain ⟨-, done, first⟩ := closed.sound.empty empty
      have first : e.start = 0 := first.trans begins.symm
      refine ⟨e, List.mem_append_right _ empty, ?_⟩
      simp [done, same.trans head, first]
  obtain ⟨x, known, wanted⟩ := found
  unfold whole?
  simp only
  split
  · exact ⟨_, rfl⟩
  · rename_i none
    exact absurd wanted (List.find?_eq_none.mp none x known)

theorem start_followed : Draft.start.Followed g columns here [] := by
  have nothing (n : Nonterminal) : Draft.start.predicted.contains n = false := Nat.zero_testBit _
  constructor
  · simp [Draft.start]
  · intro n p known
    rw [nothing] at known
    cases known
  · simp [Draft.start]

end Draft

theorem Draft.ColumnsComplete.push (complete : Draft.ColumnsComplete g w columns) {c : Column}
    (last : c.Complete g w columns.size) : Draft.ColumnsComplete g w (columns.push c) := by
  intro k bound
  rw [Array.size_push] at bound
  by_cases here : k = columns.size
  · exact ⟨c, by rw [here, Array.getElem?_push_size], here ▸ last⟩
  · obtain ⟨c', found, column⟩ := complete k (by omega)
    exact ⟨c', by rw [Array.getElem?_push, if_neg here, found], column⟩

namespace Grammar

variable {d : Draft}

/-- A column that can be closed. -/
structure Open (g : Grammar) (w : List Token) (columns : Array Column) (here : Nat) (d : Draft) :
    Prop where
  sound : d.Sound g w here
  followed : d.Followed g columns here []
  load : d.load g here ≤ g.places * (here + 1)
  started : here = 0 → d.predicted.contains g.start = true
  read {before : Nat} {c : Column} {t : Token} : here = before + 1 → columns[before]? = some c →
    w[before]? = some t → ∀ x ∈ c.waiting, x.reads t.terminal = true →
      ∃ y ∈ d.ways, y.item.Alike (x.advance (.leaf t) 0)

theorem Open.close (opened : Open g w columns here d) (ordered : g.Ordered)
    (distinct : ∀ n, (g.productions n).Nodup) (earlier : Draft.ColumnsSound g w columns) :
    (d.close g columns here (g.places * (here + 1))).Closed g w columns here := by
  obtain ⟨followed, agenda, ways, predicted⟩ :=
    Draft.close_followed ordered distinct earlier opened.sound opened.followed opened.load
  refine ⟨opened.sound.close ordered earlier _, followed, agenda,
    fun first => predicted _ (opened.started first), ?_⟩
  intro before c t next found token x known reads
  obtain ⟨y, taken, alike⟩ := opened.read next found token x known reads
  obtain ⟨z, kept, same⟩ := List.mem_map.mp (ways (List.mem_map_of_mem taken))
  exact ⟨z, kept, same ▸ alike⟩

/-- The next column is read from the items that wait for the token before it. -/
theorem open_read (columns : Array Column) {c : Column} {t : Token} (sound : c.Sound g w here) (next : w[here]? = some t)
    (size : columns.size = here) : Open g w (columns.push c) (here + 1) (c.read t) := by
  have steps : ∀ s ∈ (c.waiting.filter (·.reads t.terminal)).map
      (fun i => ({ left := i, right := .token t } : Step)), s.Sound g w (here + 1) := by
    intro s member
    obtain ⟨i, fitting, rfl⟩ := List.mem_map.mp member
    obtain ⟨waits, reads⟩ := List.mem_filter.mp fitting
    exact ⟨here, rfl, next, (sound.waiting waits).1, Draft.reads_iff.mp reads⟩
  obtain ⟨grows, taken⟩ := Draft.takeAll_spec g (here + 1)
    ((c.waiting.filter (·.reads t.terminal)).map fun i =>
      ({ left := i, right := .token t } : Step)) Draft.start
  refine ⟨sound.read next, Draft.start_followed.grow grows, ?_, ?_, ?_⟩
  · exact Nat.le_trans (Draft.takeAll_load Draft.start_sound steps) Draft.start_load
  · intro first
    omega
  · intro before c' t' same found token x known reads
    obtain rfl : here = before := by omega
    rw [← size, Array.getElem?_push_size] at found
    cases found
    cases next.symm.trans token
    exact taken ⟨x, .token t⟩ (List.mem_map_of_mem (List.mem_filter.mpr ⟨known, reads⟩))

theorem open_start (ordered : g.Ordered) (distinct : ∀ n, (g.productions n).Nodup) :
    Open g w #[] 0 (Draft.start.predict g 0 (g.corners g.start)) := by
  obtain ⟨grows, added⟩ := Draft.start.predict_spec g 0 (g.corners g.start)
  refine ⟨Draft.start_sound.predict ordered _, Draft.start_followed.grow grows, ?_, ?_, ?_⟩
  · exact Nat.le_trans (Draft.predict_load ordered distinct _ _) Draft.start_load
  · exact fun _ => added _ (Draft.mem_corners g g.start)
  · intro before c t next
    omega

theorem derive_complete (ordered : g.Ordered) (distinct : ∀ n, (g.productions n).Nodup)
    (member : p ∈ g.productions p.head) (head : p.head = g.start)
    (done : g.UnderWay w 0 p p.body.length w.length) (readable : ∀ i < w.length, g.Readable w i)
    {tokens : List Token} (size : columns.size = here)
    (earlier : Draft.ColumnsSound g w columns) (complete : Draft.ColumnsComplete g w columns)
    (opened : Open g w columns here d) (left : tokens = w.drop here) (bound : here ≤ w.length) :
    ∃ tree, g.derive g.places columns here d tokens = .ok tree := by
  induction tokens generalizing columns here d with
  | nil =>
    have all : here = w.length := by
      have := List.drop_eq_nil_iff.mp left.symm
      omega
    have closed := opened.close ordered distinct earlier
    have holds := closed.holds ordered size earlier complete done all.symm
    obtain ⟨tree, found⟩ := closed.whole member holds
    rw [head] at found
    unfold derive
    simp only [found]
    exact ⟨tree, rfl⟩
  | cons t rest ih =>
    have next : w[here]? = some t := by
      rw [← List.head?_drop, ← left]
      rfl
    have shorter : rest = w.drop (here + 1) := by
      rw [← List.tail_drop, ← left]
      rfl
    have inside := (List.getElem?_eq_some_iff.mp next).1
    have closed := opened.close ordered distinct earlier
    have column := closed.column ordered size earlier complete
    have sound := closed.sound.column ordered
    have opened' := open_read columns sound next size
    obtain ⟨t', start', q, dot', token, way, waits⟩ := readable here inside
    cases next.symm.trans token
    obtain ⟨x, known, alike⟩ := column.waiting way waits
    have rest' := alike.next ordered (sound.waiting known).1.placed (way.member ordered) waits
    obtain ⟨y, taken, -⟩ := opened'.read rfl (by rw [← size, Array.getElem?_push_size]) next x
      known (Draft.reads_iff.mpr ⟨_, rest'⟩)
    unfold derive
    simp only
    rw [if_neg]
    · exact ih (by simp [size]) (ColumnsSound.push earlier (size ▸ sound))
        (complete.push (size ▸ column)) opened' shorter inside
    · intro none
      rw [List.isEmpty_iff.mp none] at taken
      cases taken

/-- A list of tokens with a derivation is parsed. -/
theorem parse_complete (ordered : g.Ordered) (distinct : ∀ n, (g.productions n).Nodup)
    {tree : Tree} (valid : tree.valid g = true) (symbol : tree.symbol = .nonterminal g.start) :
    ∃ tree', g.parse tree.word = .ok tree' := by
  cases tree with
  | leaf t => cases symbol
  | node p children =>
    have head : p.head = g.start := Symbol.nonterminal.inj symbol
    obtain ⟨member, done, readable⟩ := underWay_of_tree valid head rfl
    have word : (Tree.node p children).word = Tree.words children := rfl
    rw [word]
    refine derive_complete ordered distinct (head ▸ member) head done readable rfl ?_ ?_
      (open_start ordered distinct) rfl (Nat.zero_le _)
    · intro k c found
      simp at found
    · intro k bound
      simp at bound

end Grammar

end StyleSplit.Script
