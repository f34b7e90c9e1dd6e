import StyleSplit.CommandLine.Files
import StyleSplit.Proofs.Text.Encoding

/-! What is stored in files. Writing to a place changes what stands there and nothing else,
so it leaves all files alone exactly when the same contents stand there already. A file that
is found at a path is also where that path leads for writing, and a text that was read from
it is written back as it was unless line ends were made alike. -/
namespace StyleSplit

namespace Text

variable {names : List Text}

theorem join_cons_cons (sep : Text) (t u : Text) (rest : List Text) :
    join sep (t :: u :: rest) = t ++ (sep ++ join sep (u :: rest)) := by
  rw [join, List.append_assoc]
  simp

theorem sublist_join_cons (sep t : Text) (rest : List Text) :
    (join sep rest).Sublist (join sep (t :: rest)) := by
  cases rest with
  | nil => exact List.nil_sublist _
  | cons u rest =>
    rw [join_cons_cons, ← List.append_assoc]
    exact List.sublist_append_right _ _

/-- Leaving names out of a joined text takes code points from it. -/
theorem join_filter_sublist (sep : Text) (names : List Text) (keep : Text → Bool) :
    (join sep (names.filter keep)).Sublist (join sep names) := by
  induction names with
  | nil => exact .refl _
  | cons t rest ih =>
    rw [List.filter_cons]
    split
    · cases kept : rest.filter keep with
      | nil =>
        cases rest with
        | nil => exact .refl _
        | cons u rest =>
          rw [join_cons_cons]
          exact List.sublist_append_left _ _
      | cons v others =>
        rw [kept] at ih
        cases rest with
        | nil => cases kept
        | cons u rest =>
          rw [join_cons_cons, join_cons_cons]
          exact (List.Sublist.refl t).append ((List.Sublist.refl sep).append ih)
    · exact ih.trans (sublist_join_cons sep t rest)

theorem mem_join {sep : Text} {c : CodePoint} {t : Text} (listed : t ∈ names) (member : c ∈ t) :
    c ∈ join sep names := by
  induction names with
  | nil => cases listed
  | cons u rest ih =>
    rcases List.mem_cons.mp listed with rfl | listed
    · cases rest with
      | nil => exact member
      | cons v rest =>
        rw [join_cons_cons]
        exact List.mem_append_left _ member
    · exact (sublist_join_cons sep u rest).subset (ih listed)

/-- Where some code points are left out, no more bytes are needed. -/
theorem encode?_sublist {t u : Text} {b : Bytes} (sub : u.Sublist t)
    (encoded : t.encode? = some b) :
    ∃ e, u.encode? = some e ∧ e.length ≤ b.length := by
  induction sub generalizing b with
  | slnil => exact ⟨b, encoded, Nat.le_refl _⟩
  | cons c _ ih =>
    obtain ⟨bs, rest, -, others, rfl⟩ := encode?_cons.mp encoded
    obtain ⟨e, shorter, bound⟩ := ih others
    exact ⟨e, shorter, by rw [List.length_append]; omega⟩
  | cons_cons c _ ih =>
    obtain ⟨bs, rest, point, others, rfl⟩ := encode?_cons.mp encoded
    obtain ⟨e, shorter, bound⟩ := ih others
    exact ⟨bs ++ e, encode?_cons.mpr ⟨bs, e, point, shorter, rfl⟩, by
      rw [List.length_append, List.length_append]; omega⟩

end Text

namespace CommandLine

namespace Path

variable {path : Text} {c : CodePoint}

theorem names_ne_nil (path : Text) : names path ≠ [] := by
  cases path with
  | nil => simp [names]
  | cons c rest =>
    rw [names]
    split
    · simp
    · split <;> simp

theorem join_names (path : Text) : Text.join [CodePoint.slash] (names path) = path := by
  induction path with
  | nil => rfl
  | cons c rest ih =>
    rw [names]
    split
    · rename_i slash
      obtain ⟨name, more, split⟩ := List.exists_cons_of_ne_nil (names_ne_nil rest)
      rw [split] at ih ⊢
      rw [Text.join_cons_cons, ih, eq_of_beq slash]
      rfl
    · split
      · rename_i none
        exact absurd none (names_ne_nil rest)
      · rename_i name more split
        rw [split] at ih
        cases more with
        | nil => rw [← ih]; rfl
        | cons other more =>
          rw [Text.join_cons_cons] at ih ⊢
          rw [← ih]
          rfl

/-- Every point of a path but a slash is in one of its names. -/
theorem mem_names (member : c ∈ path) (inside : c ≠ CodePoint.slash) :
    ∃ name ∈ names path, c ∈ name := by
  induction path with
  | nil => cases member
  | cons d rest ih =>
    rw [names]
    split
    · rename_i slash
      rcases List.mem_cons.mp member with rfl | member
      · exact absurd (eq_of_beq slash) inside
      · obtain ⟨name, listed, member⟩ := ih member
        exact ⟨name, List.mem_cons_of_mem _ listed, member⟩
    · split
      · rename_i none
        exact absurd none (names_ne_nil rest)
      · rename_i name more split
        rcases List.mem_cons.mp member with rfl | member
        · exact ⟨c :: name, List.mem_cons_self, List.mem_cons_self⟩
        · obtain ⟨found, listed, member⟩ := ih member
          rw [split] at listed
          rcases List.mem_cons.mp listed with rfl | listed
          · exact ⟨d :: found, List.mem_cons_self, List.mem_cons_of_mem d member⟩
          · exact ⟨found, List.mem_cons_of_mem _ listed, member⟩

/-- A path without idle names is the path with some points left out. -/
theorem brief_sublist (path : Text) : (brief path).Sublist path := by
  rw [brief, briefNames]
  cases path with
  | nil => exact .refl _
  | cons c rest =>
    rcases Decidable.em (c = CodePoint.slash) with rfl | other
    · have absolute : isAbsolute (CodePoint.slash :: rest) = true := rfl
      have first : (names (CodePoint.slash :: rest)).filter (!isIdle ·) =
          (names rest).filter (!isIdle ·) := rfl
      rw [if_pos absolute, first]
      have inside := Text.join_filter_sublist [CodePoint.slash] (names rest) (!isIdle ·)
      rw [join_names] at inside
      exact inside.cons_cons _
    · have relative : ¬isAbsolute (c :: rest) = true := by
        simpa [isAbsolute] using other
      rw [if_neg relative, List.nil_append]
      have inside := Text.join_filter_sublist [CodePoint.slash] (names (c :: rest)) (!isIdle ·)
      rwa [join_names] at inside

/-- What is left out of a path are slashes and single points. -/
theorem mem_brief (member : c ∈ path) (inside : c ≠ CodePoint.slash) (large : c ≠ CodePoint.point) :
    c ∈ brief path := by
  obtain ⟨name, listed, member⟩ := mem_names member inside
  refine List.mem_append_right _ (Text.mem_join (List.mem_filter.mpr ⟨listed, ?_⟩) member)
  have busy : name ≠ [] ∧ name ≠ [CodePoint.point] := by
    constructor
    · rintro rfl
      cases member
    · rintro rfl
      exact large (List.mem_singleton.mp member)
  simpa [isIdle] using busy

theorem exceeds_eq_false {bytes : Nat} {t : Text} :
    exceeds bytes t = false ↔ ∀ encoded, t.encode? = some encoded → encoded.length ≤ bytes := by
  have bounded {n : Nat} : Nat.blt bytes n = false ↔ n ≤ bytes := by
    rw [← Nat.not_lt, ← Nat.blt_eq, Bool.not_eq_true]
  rw [exceeds]
  cases t.encode? with
  | none => simp
  | some encoded => simp [bounded]

/-- A path that is short enough for reading is short enough for writing. -/
theorem exceeds_brief {bytes : Nat} (short : exceeds bytes path = false) :
    exceeds bytes (brief path) = false := by
  rw [exceeds_eq_false] at short ⊢
  intro shorter briefly
  have whole : ∃ encoded, path.encode? = some encoded := by
    refine Text.encode?_iff.mpr fun c member => ?_
    rcases Decidable.em (c = CodePoint.slash) with rfl | inside
    · exact ⟨_, rfl⟩
    rcases Decidable.em (c = CodePoint.point) with rfl | large
    · exact ⟨_, rfl⟩
    exact Text.encode?_iff.mp ⟨shorter, briefly⟩ c (mem_brief member inside large)
  obtain ⟨encoded, written⟩ := whole
  obtain ⟨e, same, bound⟩ := Text.encode?_sublist (brief_sublist path) written
  cases same.symm.trans briefly
  exact Nat.le_trans bound (short encoded written)

end Path

namespace Files

variable {files : Files} {p q : Place} {path : Text} {c d : Bytes}

/-- Names that lead nowhere can be left out on the way. -/
theorem follow_busy {names : List Text} (followed : files.follow p names = .ok q) :
    files.follow p (names.filter (!Path.isIdle ·)) = .ok q := by
  induction names generalizing p with
  | nil => exact followed
  | cons name rest ih =>
    rw [follow] at followed
    split at followed
    · cases followed
    · cases followed
    · rename_i directory
      split at followed
      · cases followed
      · rename_i short
        have behind := ih followed
        rw [List.filter_cons]
        split
        · rw [follow, directory]
          simp only [if_neg short]
          exact behind
        · rename_i idle
          have still : p.step name = p := if_pos (by simpa using idle)
          rwa [still] at behind

theorem find_eq_file : files.find path = .file c ↔ path.isEmpty = false ∧
    Path.exceeds Path.limit path = false ∧
      ∃ p, files.follow (.start path) (Path.names path) = .ok p ∧ files.foundAt p = .file c := by
  rw [find]
  split
  · rename_i unfit
    simp only [reduceCtorEq, false_iff, not_and]
    intro given short
    rw [given, short] at unfit
    cases unfit
  · rename_i fit
    have fit : path.isEmpty = false ∧ Path.exceeds Path.limit path = false := by simpa using fit
    split
    · rename_i p followed
      simp [fit, followed]
    · rename_i fault followed
      simp [followed]

/-- A file that is found at a path is what would be written to there. -/
theorem destination_of_find (found : files.find path = .file c) :
    ∃ p, files.destination path = .ok p ∧ files.foundAt p = .file c ∧
      files.follow (.start path) (Path.names path) = .ok p := by
  obtain ⟨-, short, p, followed, there⟩ := find_eq_file.mp found
  refine ⟨p, ?_, there, followed⟩
  rw [destination, Path.exceeds_brief short]
  exact follow_busy followed

/-- The file that is found at a place. -/
theorem foundAt_eq_file : files.foundAt p = .file c ↔
    ∃ name, files.contents.find? (Place.ofPath ·.1 == p) = some (name, c) := by
  rw [foundAt]
  split
  · rename_i file found
    rw [found]
    constructor
    · rintro ⟨⟩
      exact ⟨file.1, rfl⟩
    · rintro ⟨name, ⟨⟩⟩
      rfl
  · rename_i none
    rw [none]
    simp only [reduceCtorEq, exists_false, iff_false]
    split <;> exact Found.noConfusion

/-- Putting contents into a file that is there changes that file and no other. -/
theorem find?_put {name : Text} {contents : List (Text × Bytes)}
    (found : contents.find? (Place.ofPath ·.1 == p) = some (name, c)) :
    (put p d contents).find? (Place.ofPath ·.1 == q) =
      if q = p then some (name, d) else contents.find? (Place.ofPath ·.1 == q) := by
  induction contents with
  | nil => cases found
  | cons file rest ih =>
    rw [List.find?_cons] at found
    rw [put]
    split at found
    · rename_i here
      cases found
      simp only [here, if_true, List.find?_cons]
      rw [beq_iff_eq] at here
      rw [here]
      split
      · rename_i same
        rw [if_pos (eq_of_beq same).symm]
      · rename_i other
        rw [if_neg fun same => by simp [same] at other]
    · rename_i elsewhere
      simp only [elsewhere, Bool.false_eq_true, if_false, List.find?_cons, ih found]
      split
      · rename_i same
        have other : q ≠ p := fun equal => by simp [← equal, same] at elsewhere
        rw [if_neg other]
      · rfl

theorem names_put {name : Text} {contents : List (Text × Bytes)}
    (found : contents.find? (Place.ofPath ·.1 == p) = some (name, c)) :
    (put p d contents).map (·.1) = contents.map (·.1) := by
  induction contents with
  | nil => cases found
  | cons file rest ih =>
    rw [List.find?_cons] at found
    rw [put]
    split at found
    · rename_i here
      rw [if_pos here, List.map_cons, List.map_cons]
    · rename_i elsewhere
      rw [if_neg (Bool.eq_false_iff.mp elsewhere), List.map_cons, List.map_cons, ih found]

/-- What stands where after a file that is there was written. -/
theorem foundAt_write (there : files.foundAt p = .file c) :
    (files.write p d).foundAt q = if q = p then .file d else files.foundAt q := by
  obtain ⟨name, found⟩ := foundAt_eq_file.mp there
  rw [foundAt, write, find?_put found, names_put found]
  rcases Decidable.em (q = p) with same | other
  · rw [if_pos same, if_pos same]
  · rw [if_neg other, if_neg other, foundAt]

theorem follow_write {names : List Text} (there : files.foundAt p = .file c) :
    (files.write p d).follow q names = files.follow q names := by
  induction names generalizing q with
  | nil => rfl
  | cons name rest ih =>
    rw [follow, follow, foundAt_write there]
    rcases Decidable.em (q = p) with rfl | other
    · rw [if_pos rfl, there]
    · simp only [if_neg other, ih]

/-- Written contents are found again. -/
theorem find_write (found : files.find path = .file c) (leads : files.destination path = .ok p) :
    (files.write p d).find path = .file d := by
  obtain ⟨given, short, -⟩ := find_eq_file.mp found
  obtain ⟨q, destined, there, followed⟩ := destination_of_find found
  cases destined.symm.trans leads
  refine find_eq_file.mpr ⟨given, short, p, ?_, ?_⟩
  · rw [follow_write there, followed]
  · rw [foundAt_write there, if_pos rfl]

theorem put_eq_self {contents : List (Text × Bytes)} :
    put p d contents = contents ↔
      ∃ name, contents.find? (Place.ofPath ·.1 == p) = some (name, d) := by
  induction contents with
  | nil => simp [put]
  | cons file rest ih =>
    rw [put, List.find?_cons]
    split
    · rename_i here
      rw [here, List.cons_eq_cons]
      constructor
      · rintro ⟨same, -⟩
        exact ⟨file.1, by rw [← same]⟩
      · rintro ⟨name, ⟨⟩⟩
        exact ⟨rfl, rfl⟩
    · rename_i elsewhere
      rw [Bool.eq_false_iff.mpr elsewhere, List.cons_eq_cons, ← ih]
      exact and_iff_right rfl

/-- A write leaves all files alone exactly when it writes what a file there holds. -/
theorem write_eq_self : files.write p d = files ↔ files.foundAt p = .file d := by
  rw [foundAt_eq_file, ← put_eq_self]
  constructor
  · intro same
    exact congrArg Files.contents same
  · intro same
    rw [write, same]

/-- A text that was read from a file can be written. It is read again from what was written,
which is the same contents exactly when no carriage return was there. -/
theorem readText_ok {source : Text} (read : readText c = .ok source) :
    ∃ written, source.encode? = some written ∧ readText written = .ok source ∧
      (written = c ↔ 13 ∉ c) := by
  rw [readText] at read
  split at read
  · rename_i t decoded
    cases read
    have whole := Text.encode?_of_decode? decoded
    obtain ⟨written, encoded⟩ := Text.encode?_normalizeLines whole
    have again := Text.decode?_of_encode? encoded
    refine ⟨written, encoded, ?_, ?_⟩
    · rw [readText, again]
      exact congrArg Except.ok (Text.normalizeLines_eq_self.mpr fun member =>
        (Text.mem_normalizeLines member).1 rfl)
    have same : written = c ↔ t.normalizeLines = t := by
      constructor
      · rintro rfl
        exact Option.some.inj (again.symm.trans decoded)
      · intro same
        rw [same, whole] at encoded
        exact (Option.some.inj encoded).symm
    rw [same, Text.normalizeLines_eq_self]
    exact (Text.mem_encode? (a := 13) whole (by decide)).not.symm
  · cases read

/-- A file is written where a path leads, unless a directory is there. -/
theorem writeText_encoded {t : Text} (leads : files.destination path = .ok p)
    (fits : files.foundAt p ≠ .directory) (encoded : t.encode? = some d) :
    files.writeText path t = (files.write p d, none) := by
  rw [writeText, leads, encoded]
  dsimp only
  split
  · exact absurd ‹_› fits
  · rfl

theorem writeText_unencodable {t : Text} (leads : files.destination path = .ok p)
    (fits : files.foundAt p ≠ .directory) (unencodable : t.encode? = none) :
    files.writeText path t = (files.write p [], some .unencodable) := by
  rw [writeText, leads, unencodable]
  dsimp only
  split
  · exact absurd ‹_› fits
  · rfl

/-- Where no file can be opened nothing is written. -/
theorem writeText_kept {t : Text}
    (closed : ∀ p, files.destination path = .ok p → files.foundAt p = .directory) :
    ∃ fault, files.writeText path t = (files, some fault) := by
  rw [writeText]
  cases leads : files.destination path with
  | error fault => exact ⟨fault, rfl⟩
  | ok p =>
    dsimp only
    rw [closed p leads]
    exact ⟨.isDirectory, rfl⟩

end Files

end CommandLine

end StyleSplit
