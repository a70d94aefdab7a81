import RoseLang.Source.FileSet
import RoseLang.Proofs.Run
import RoseLang.Proofs.Source.LineMap

/-!
# Sets of files

However texts are added to a new set, and whichever of them do not fit, the files it holds lie one after
the other in the position space with no position in common. That is the invariant `Valid`. It makes the
search for the last base at or before a position find the one file that has the position, and through it
every byte of every text keeps a position, a line and a column of its own.
-/

namespace RoseLang

theorem except_bind_eq_ok {ε α β : Type} {x : Except ε α} {f : α → Except ε β} {b : β} :
    (x >>= f) = .ok b ↔ ∃ a, x = .ok a ∧ f a = .ok b := by
  cases x with
  | error e => simp [Bind.bind, Except.bind]
  | ok a => simp [Bind.bind, Except.bind]

namespace SourceFile

theorem ofText_eq_ok_iff {name source : String} {base : Nat} {file : SourceFile} :
    ofText name base source = .ok file ↔ base + source.utf8ByteSize ≤ Pos.last.index ∧
      file = ⟨name, base, source.utf8ByteSize, LineMap.ofText source⟩ := by
  rw [ofText]
  split
  · next hlarge => exact iff_of_false nofun fun h => by omega
  · split
    · next hfull => exact iff_of_false nofun fun h => by omega
    · next hfits => exact ⟨fun h => ⟨Nat.not_lt.mp hfits, (Except.ok.inj h).symm⟩, fun h => congrArg _ h.2.symm⟩

theorem base_ofText {name source : String} {base : Nat} {file : SourceFile}
    (h : ofText name base source = .ok file) : file.base = base := by
  rw [(ofText_eq_ok_iff.mp h).2]

theorem contains_iff {f : SourceFile} {p : Pos} :
    f.contains p = true ↔ f.base ≤ p.index ∧ p.index ≤ f.base + f.size :=
  decide_eq_true_iff

theorem contains_pos (f : SourceFile) (offset : Nat) : f.contains (f.pos offset) = true := by
  apply contains_iff.mpr
  show f.base ≤ f.base + min offset f.size ∧ f.base + min offset f.size ≤ f.base + f.size
  omega

theorem offset_pos {f : SourceFile} {offset : Nat} (h : offset ≤ f.size) : f.offset (f.pos offset) = offset := by
  show min (f.base + min offset f.size - f.base) f.size = offset
  omega

theorem isValid_of_contains {f : SourceFile} {p : Pos} (hbase : 1 ≤ f.base) (h : f.contains p = true) :
    p.isValid = true := by
  have hle := (contains_iff.mp h).1
  apply decide_eq_true
  omega

theorem position_pos {f : SourceFile} {offset : Nat} (hbase : 1 ≤ f.base) (h : offset ≤ f.size) :
    f.position (f.pos offset) =
      ⟨f.name, offset, (f.lineMap.lineColumn offset).1, (f.lineMap.lineColumn offset).2⟩ := by
  have hcontains := f.contains_pos offset
  rw [position, isValid_of_contains hbase hcontains, hcontains, Bool.and_self, if_pos rfl, offset_pos h]

end SourceFile

namespace FileSet

theorem add_eq_ok_iff {s s' : FileSet} {name source : String} {file : SourceFile} :
    s.add name source = .ok (file, s') ↔ SourceFile.ofText name s.next source = .ok file ∧
      s.next + file.size + 1 ≤ Pos.last.index ∧ s' = ⟨s.next + file.size + 1, s.files ++ [file]⟩ := by
  rw [FileSet.add, except_bind_eq_ok]
  constructor
  · rintro ⟨found, hfound, h⟩
    dsimp only at h
    split at h
    · cases h
    · next hfits =>
      obtain ⟨rfl, rfl⟩ := Prod.mk.inj (Except.ok.inj h)
      exact ⟨hfound, Nat.not_lt.mp hfits, rfl⟩
  · rintro ⟨hfound, hfits, rfl⟩
    exact ⟨file, hfound, if_neg (Nat.not_lt.mpr hfits)⟩

/-- The files lie one after the other, from place 1 on, with a place between the end of each and the base of the
next. -/
structure Valid (s : FileSet) : Prop where
  apart : s.files.Pairwise fun f g => f.base + f.size < g.base
  placed : ∀ f ∈ s.files, 1 ≤ f.base ∧ f.base + f.size < s.next
  next_pos : 1 ≤ s.next
  next_le : s.next ≤ Pos.last.index

theorem Valid.empty : Valid .empty where
  apart := .nil
  placed := nofun
  next_pos := Nat.le_refl _
  next_le := by decide

theorem Valid.add {s s' : FileSet} {name source : String} {file : SourceFile} (hs : s.Valid)
    (hadd : s.add name source = .ok (file, s')) : s'.Valid := by
  obtain ⟨hfile, hfits, rfl⟩ := add_eq_ok_iff.mp hadd
  have hbase := SourceFile.base_ofText hfile
  have hpos := hs.next_pos
  constructor
  case apart =>
    apply List.pairwise_append.mpr
    refine ⟨hs.apart, List.pairwise_singleton _ _, ?_⟩
    intro f hf g hg
    rw [List.mem_singleton.mp hg, hbase]
    exact (hs.placed f hf).2
  case placed =>
    intro f hf
    show 1 ≤ f.base ∧ f.base + f.size < s.next + file.size + 1
    rcases List.mem_append.mp hf with hf | hf
    · have hplaced := hs.placed f hf
      omega
    · rw [List.mem_singleton.mp hf, hbase]
      omega
  case next_pos => exact Nat.succ_pos _
  case next_le => exact hfits

/-! ### Search -/

/-- Among files that are apart, the last one that starts at or before a position is the one that has it. -/
theorem getLast?_takeWhile_of_contains {files : List SourceFile} {f : SourceFile} {p : Pos}
    (hapart : files.Pairwise fun f g => f.base + f.size < g.base) (hf : f ∈ files) (hp : f.contains p = true) :
    (files.takeWhile fun g => g.base ≤ p.index).getLast? = some f := by
  obtain ⟨before, after, rfl⟩ := List.append_of_mem hf
  obtain ⟨-, htail, hbefore⟩ := List.pairwise_append.mp hapart
  obtain ⟨hafter, -⟩ := List.pairwise_cons.mp htail
  obtain ⟨hle, hge⟩ := SourceFile.contains_iff.mp hp
  have hreached : ∀ g ∈ before, decide (g.base ≤ p.index) = true := by
    intro g hg
    have hlt := hbefore g hg f (List.mem_cons_self ..)
    apply decide_eq_true
    omega
  have hbeyond : after.takeWhile (fun g => g.base ≤ p.index) = [] := by
    apply List.takeWhile_eq_nil_iff.mpr
    intro hlength
    have hlt := hafter _ (List.get_mem after ⟨0, hlength⟩)
    simp only [decide_eq_true_eq]
    omega
  rw [List.takeWhile_append_of_pos hreached, List.takeWhile_cons, if_pos (decide_eq_true hle), hbeyond,
    List.getLast?_concat]

theorem Valid.file?_eq_some_iff {s : FileSet} (hs : s.Valid) {p : Pos} {f : SourceFile} :
    s.file? p = some f ↔ f ∈ s.files ∧ f.contains p = true := by
  constructor
  · intro h
    rw [file?] at h
    split at h
    · split at h
      · next g hg =>
        split at h
        · next hp =>
          obtain rfl := Option.some.inj h
          exact ⟨List.takeWhile_subset _ (List.mem_of_getLast? hg), hp⟩
        · cases h
      · cases h
    · cases h
  · rintro ⟨hf, hp⟩
    have hvalid := SourceFile.isValid_of_contains (hs.placed f hf).1 hp
    rw [file?, if_pos hvalid, getLast?_takeWhile_of_contains hs.apart hf hp]
    exact if_pos hp

theorem Valid.position_pos {s : FileSet} (hs : s.Valid) {f : SourceFile} (hf : f ∈ s.files) {offset : Nat}
    (h : offset ≤ f.size) :
    s.position (f.pos offset) =
      ⟨f.name, offset, (f.lineMap.lineColumn offset).1, (f.lineMap.lineColumn offset).2⟩ := by
  have hfile : s.file? (f.pos offset) = some f := hs.file?_eq_some_iff.mpr ⟨hf, f.contains_pos offset⟩
  rw [position, hfile]
  exact SourceFile.position_pos (hs.placed f hf).1 h

/-! ### Calls one after another -/

/-- A named text that is to be added. -/
structure NamedText where
  name : String
  source : String

/-- One call: its answer, and the set as the caller has it afterwards. -/
def call (s : FileSet) (text : NamedText) : Except SourceError SourceFile × FileSet :=
  match s.add text.name text.source with
  | .ok (file, s') => (.ok file, s')
  | .error e => (.error e, s)

/-- The answers to calls one after another, and the set after the last of them. -/
def calls (s : FileSet) (texts : List NamedText) : List (Except SourceError SourceFile) × FileSet :=
  runAll call s texts

theorem call_of_error {s : FileSet} {text : NamedText} {e : SourceError} (h : (s.call text).1 = .error e) :
    (s.call text).2 = s := by
  rw [call] at h ⊢
  split at h
  · cases h
  · rfl

theorem call_of_ok {s : FileSet} {text : NamedText} {file : SourceFile} (h : (s.call text).1 = .ok file) :
    s.add text.name text.source = .ok (file, (s.call text).2) := by
  rw [call] at h ⊢
  split at h
  · next hadd =>
    obtain rfl := Except.ok.inj h
    exact hadd
  · cases h

theorem Valid.call {s : FileSet} (hs : s.Valid) (text : NamedText) : (s.call text).2.Valid := by
  cases h : (s.call text).1 with
  | error e =>
    rw [call_of_error h]
    exact hs
  | ok file => exact hs.add (call_of_ok h)

theorem Valid.calls {s : FileSet} (hs : s.Valid) (texts : List NamedText) : (s.calls texts).2.Valid :=
  runAll_invariant (fun _ text hs => hs.call text) hs texts

theorem files_call (s : FileSet) (text : NamedText) :
    (s.call text).2.files = s.files ++ (s.call text).1.toOption.toList := by
  cases h : (s.call text).1 with
  | error e =>
    rw [call_of_error h]
    exact (List.append_nil _).symm
  | ok file => rw [(add_eq_ok_iff.mp (call_of_ok h)).2.2]; rfl

theorem files_calls (s : FileSet) (texts : List NamedText) :
    (s.calls texts).2.files = s.files ++ (s.calls texts).1.filterMap Except.toOption := by
  have hanswers : (texts.zip (s.calls texts).1).map Prod.snd = (s.calls texts).1 := by
    apply List.map_snd_zip
    exact Nat.le_of_eq (length_runAll s texts)
  have hadds : (s.calls texts).2.files =
      s.files ++ (texts.zip (s.calls texts).1).filterMap (Except.toOption ∘ Prod.snd) :=
    runAll_adds files_call s texts
  rw [hadds, ← List.filterMap_map, hanswers]

/-- Texts that are added to a new set, with texts among them that do not fit. A call that fails leaves the set as
it was. The files lie one after the other with no position in common, every position is found in the one file
that has it, and every byte of an added text, its end included, keeps its offset, its line and its column. -/
theorem calls_apart (texts : List NamedText) :
    let answers := (empty.calls texts).1
    let s := (empty.calls texts).2
    (∀ before text after e, texts = before ++ text :: after → answers[before.length]? = some (.error e) →
      (empty.calls (before ++ [text])).2 = (empty.calls before).2) ∧
    s.files = answers.filterMap Except.toOption ∧
    (s.files.Pairwise fun f g => f.base + f.size < g.base) ∧
    (∀ f ∈ s.files, 1 ≤ f.base ∧ f.base + f.size ≤ Pos.last.index) ∧
    (∀ p f, s.file? p = some f ↔ f ∈ s.files ∧ f.contains p = true) ∧
    s.file? .none = none ∧
    ∀ before text after f, texts = before ++ text :: after → answers[before.length]? = some (.ok f) →
      f.name = text.name ∧ f.size = text.source.utf8ByteSize ∧
      ∀ offset ≤ f.size,
        s.position (f.pos offset) = ⟨text.name, offset, Text.line (Text.bytes text.source) offset,
          Text.column (Text.bytes text.source) offset⟩ ∧
        f.offset (f.pos offset) = offset := by
  intro answers s
  have hs : s.Valid := Valid.empty.calls texts
  have hfiles : s.files = answers.filterMap Except.toOption := files_calls empty texts
  refine ⟨?failed, hfiles, hs.apart, ?placed, fun p f => hs.file?_eq_some_iff, rfl, ?added⟩
  case failed =>
    rintro before text after e rfl h
    have hanswer : ((empty.calls before).2.call text).1 = .error e :=
      Option.some.inj ((getElem?_runAll empty before text after).symm.trans h)
    rw [calls, runAll_append]
    exact call_of_error hanswer
  case placed =>
    intro f hf
    have hplaced := hs.placed f hf
    have hle := hs.next_le
    omega
  case added =>
    intro before text after f htexts h
    have hf : f ∈ s.files := by
      rw [hfiles]
      exact List.mem_filterMap.mpr ⟨.ok f, List.mem_of_getElem? h, rfl⟩
    subst htexts
    have hanswer : ((empty.calls before).2.call text).1 = .ok f :=
      Option.some.inj ((getElem?_runAll empty before text after).symm.trans h)
    obtain ⟨hfile, -⟩ := add_eq_ok_iff.mp (call_of_ok hanswer)
    obtain ⟨-, rfl⟩ := SourceFile.ofText_eq_ok_iff.mp hfile
    refine ⟨rfl, rfl, ?_⟩
    intro offset hoffset
    have hposition := hs.position_pos hf hoffset
    rw [LineMap.lineColumn_ofText hoffset] at hposition
    exact ⟨hposition, SourceFile.offset_pos hoffset⟩

/-- A text of two lines, the second of which has a character of two bytes, after a text of one byte. -/
example : (empty.calls [⟨"a", "x"⟩, ⟨"b", "1\né"⟩]).2.position ⟨7⟩ = ⟨"b", 4, 2, 3⟩ := by decide +kernel

end FileSet

end RoseLang
