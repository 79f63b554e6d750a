import Resugar.Files.Batch

/-!
# Writing into a tree of files

A file is written in three steps: its directory is made, the file is opened,
and its text is turned into bytes. Each of them can fail, and only the last
leaves something in the place of the file (`Store.Writes`). What happens is
decided by the files on the way to the file and by whether there is a directory
in its place (`Store.Agree`), whatever else there is.
-/

namespace Resugar

open List

/-! ## Bytes -/

namespace Utf8

theorem encodePoint?_eq_none_iff {c : CodePoint} :
    encodePoint? c = none ↔ c.isSurrogate = true := by
  have hsurrogate : c.isSurrogate = true ↔ 0xD800 ≤ c.val ∧ c.val < 0xE000 := by
    rw [CodePoint.isSurrogate, Bool.and_eq_true, decide_eq_true_iff, decide_eq_true_iff]
  unfold encodePoint?
  grind

/-- A text has no bytes if and only if it has a surrogate. -/
theorem encode?_eq_none_iff {t : Text} : encode? t = none ↔ ∃ c ∈ t, c.isSurrogate = true := by
  rw [encode?, Option.map_eq_none_iff]
  induction t with
  | nil => simp
  | cons c t ih =>
    rw [mapM_cons]
    simp only [mem_cons, exists_eq_or_imp]
    rw [← ih, ← encodePoint?_eq_none_iff]
    cases encodePoint? c with
    | none => simp
    | some bytes => cases t.mapM encodePoint? <;> simp

end Utf8

namespace Store

variable {s t u : Store} {p q : List Text} {text : Text}

/-! ## Files and directories -/

theorem isFile_eq (s : Store) (p : List Text) : s.isFile p = (s.bytes? p).isSome := by
  rw [isFile, bytes?, Option.isSome_map, Bool.eq_iff_iff, any_eq_true, find?_isSome]

/-- A file that is put into a store has its bytes, others have theirs. -/
theorem bytes?_put (s : Store) (p q : List Text) (bytes : List UInt8) :
    (s.put p bytes).bytes? q = if q = p then some bytes else s.bytes? q := by
  unfold put bytes?
  dsimp only
  rw [find?_append, find?_filter]
  split
  case isTrue hq =>
    -- No file with this path name is left, so it is the new one.
    rw [find?_eq_none.2 fun f _ => by grind]
    simp [hq]
  case isFalse hq =>
    rw [find?_singleton, if_neg (by grind), Option.or_none]
    congr 2
    funext f
    grind

theorem isFile_iff : s.isFile p = true ↔ ∃ f ∈ s.files, f.1 = p := by
  simp only [isFile, any_eq_true, beq_iff_eq]

theorem leadsThroughFile_iff :
    s.leadsThroughFile p = true ↔ ∃ q, q <+: p ∧ q ≠ p ∧ s.isFile q = true := by
  simp only [leadsThroughFile, isFile_iff, any_eq_true, Bool.and_eq_true,
    List.isPrefixOf_iff_prefix, bne_iff_ne]
  constructor
  · rintro ⟨f, hf, hp, hne⟩
    exact ⟨f.1, hp, hne, f, hf, rfl⟩
  · rintro ⟨q, hp, hne, f, hf, rfl⟩
    exact ⟨f, hf, hp, hne⟩

/-- The directories of a store. -/
theorem isDirectory_iff :
    s.isDirectory p = true ↔
      (p.getLast? = some (Text.ofString ".") ∨ p.getLast? = some (Text.ofString "..")) ∨
        (∃ d ∈ s.directories, p <+: d) ∨ ∃ q, p <+: q ∧ p ≠ q ∧ s.isFile q = true := by
  have hdots : p.getLast?.any (fun name => name == Text.ofString "." || name == Text.ofString "..")
      = true ↔ p.getLast? = some (Text.ofString ".") ∨ p.getLast? = some (Text.ofString "..") := by
    cases p.getLast? <;> simp
  rw [isDirectory, Bool.or_eq_true, Bool.or_eq_true, hdots, or_assoc]
  simp only [isFile_iff, any_eq_true, Bool.and_eq_true, List.isPrefixOf_iff_prefix,
    bne_iff_ne]
  refine or_congr_right (or_congr_right ⟨?_, ?_⟩)
  · rintro ⟨f, hf, hp, hne⟩
    exact ⟨f.1, hp, hne, f, hf, rfl⟩
  · rintro ⟨q, hp, hne, f, hf, rfl⟩
    exact ⟨f, hf, hp, hne⟩

/-- A new file makes directories only on the way to it. -/
theorem isDirectory_put (h : q <+: p → q = p) (s : Store) (bytes : List UInt8) :
    (s.put p bytes).isDirectory q = s.isDirectory q := by
  rw [Bool.eq_iff_iff, isDirectory_iff, isDirectory_iff]
  refine or_congr_right (or_congr_right (exists_congr fun r => and_congr_right fun hr =>
    and_congr_right fun hne => ?_))
  have hrp : r ≠ p := fun heq => hne ((h (heq ▸ hr)).trans heq.symm)
  rw [isFile_eq, isFile_eq, bytes?_put, if_neg hrp]

/-- A store before and after the directory for a file is made. -/
structure Prepares (p : List Text) (s t : Store) : Prop where
  files : t.files = s.files
  directories : t.directories = s.directories ∨ t.directories = s.directories ++ [p.dropLast]

/-- The store with the directory for a file. -/
def prepare (s : Store) (p : List Text) : Store :=
  if s.isDirectory p.dropLast then s
  else { s with directories := s.directories ++ [p.dropLast] }

theorem prepares (s : Store) (p : List Text) : Prepares p s (s.prepare p) := by
  unfold prepare
  split
  · exact ⟨rfl, .inl rfl⟩
  · exact ⟨rfl, .inr rfl⟩

namespace Prepares

theorem bytes?_eq (h : Prepares p s t) (q : List Text) : t.bytes? q = s.bytes? q := by
  rw [bytes?, bytes?, h.files]

/-- All directories that can be new lead to the file. -/
theorem isDirectory_eq (h : Prepares p s t) (hq : ¬q <+: p.dropLast) :
    t.isDirectory q = s.isDirectory q := by
  unfold isDirectory
  rw [h.files]
  rcases h.directories with hd | hd
  · rw [hd]
  · rw [hd, any_append, any_cons, any_nil, Bool.or_false,
      Bool.eq_false_iff.2 fun hprefix => hq (List.isPrefixOf_iff_prefix.1 hprefix), Bool.or_false]

end Prepares

/-- A path name that leads on is a path name of the directory. -/
theorem prefix_dropLast (h : q <+: p) (hne : q ≠ p) : q <+: p.dropLast := by
  rcases p.eq_nil_or_concat with rfl | ⟨directory, name, rfl⟩
  · exact absurd (prefix_nil.1 h) hne
  · rw [concat_eq_append, prefix_concat_iff] at h
    rw [concat_eq_append, dropLast_concat]
    exact h.resolve_left (by rwa [concat_eq_append] at hne)

/-- A path name is longer than its directory. -/
theorem not_prefix_dropLast (hp : p ≠ []) : ¬p <+: p.dropLast := fun hprefix => by
  have hlength := hprefix.length_le
  rw [length_dropLast] at hlength
  have hpos := length_pos_iff.2 hp
  omega

/-! ## Writing -/

/-- What writing a text to a file can do, once its directory is made: there is a
    fault before the file is opened, or the text has no bytes, or it is written.
    -/
inductive Writes (p : List Text) (text : Text) (s : Store) : Store × Option Fault → Prop
  | stopped {fault : Fault}
      (hfault : fault = .loneSurrogate → p.getLast?.bind PathName.nameFault? ≠ none) :
    Writes p text s (s, some fault)
  | emptied (hname : p.getLast?.bind PathName.nameFault? = none)
      (htext : Utf8.encode? text = none) :
    Writes p text s (s.put p [], some .loneSurrogate)
  | written {bytes : List UInt8} (htext : Utf8.encode? text = some bytes) :
    Writes p text s (s.put p bytes, none)

/-- Writing to a file does one of these things. -/
theorem writeFile_writes (s : Store) (p : List Text) (text : Text) :
    Writes p text s (s.writeFile p text) := by
  unfold writeFile
  split
  case h_1 hname => exact .stopped fun _ => by simp [hname]
  case h_2 hname =>
    split
    · exact .stopped fun hfault => by cases hfault
    · split
      case h_1 htext => exact .written htext
      case h_2 htext => exact .emptied hname htext

/-- The directory is made first, if no file is in its way. -/
theorem write_eq (s : Store) (p : List Text) (text : Text) :
    s.write p text =
      if s.isFile p.dropLast then (s, some .fileInTheWay)
      else if s.leadsThroughFile p.dropLast then (s, some .notADirectory)
      else (s.prepare p).writeFile p text := by
  unfold write makeDirectory
  cases s.isFile p.dropLast <;> cases s.leadsThroughFile p.dropLast <;> rfl

/-- Writing a file makes its directory, and then does one of three things. -/
theorem write_writes (s : Store) (p : List Text) (text : Text) :
    ∃ t, Prepares p s t ∧ Writes p text t (s.write p text) := by
  have hstopped {fault : Fault} (hfault : fault ≠ .loneSurrogate) :
      ∃ t, Prepares p s t ∧ Writes p text t (s, some fault) :=
    ⟨s, ⟨rfl, .inl rfl⟩, .stopped fun h => absurd h hfault⟩
  rw [write_eq]
  split
  · exact hstopped (by decide)
  · split
    · exact hstopped (by decide)
    · exact ⟨_, s.prepares p, writeFile_writes _ p text⟩

/-- Writing a file changes no other file. -/
theorem bytes?_write_of_ne (h : q ≠ p) (s : Store) (text : Text) :
    (s.write p text).1.bytes? q = s.bytes? q := by
  obtain ⟨t, ht, hwrites⟩ := s.write_writes p text
  rw [← ht.bytes?_eq q]
  generalize s.write p text = result at hwrites ⊢
  cases hwrites with
  | stopped => rfl
  | emptied | written => rw [bytes?_put, if_neg h]

/-- Writing a file makes directories only on the way to it. -/
theorem isDirectory_write (h : ¬q <+: p.dropLast) (s : Store) (text : Text) :
    (s.write p text).1.isDirectory q = s.isDirectory q := by
  have hput : q <+: p → q = p := fun hq =>
    Decidable.byContradiction fun hne => h (prefix_dropLast hq hne)
  obtain ⟨t, ht, hwrites⟩ := s.write_writes p text
  rw [← ht.isDirectory_eq h]
  generalize s.write p text = result at hwrites ⊢
  cases hwrites with
  | stopped => rfl
  | emptied | written => exact isDirectory_put hput t _

/-- Two stores hold the same files on the way to a path name and there. -/
structure Agree (p : List Text) (s t : Store) : Prop where
  bytes : ∀ q, q <+: p → s.bytes? q = t.bytes? q
  directory : s.isDirectory p = t.isDirectory p

namespace Agree

theorem refl (p : List Text) (s : Store) : Agree p s s :=
  ⟨fun _ _ => rfl, rfl⟩

theorem symm (h : Agree p s t) : Agree p t s :=
  ⟨fun q hq => (h.bytes q hq).symm, h.directory.symm⟩

theorem trans (hst : Agree p s t) (htu : Agree p t u) : Agree p s u :=
  ⟨fun q hq => (hst.bytes q hq).trans (htu.bytes q hq), hst.directory.trans htu.directory⟩

theorem isFile_eq (h : Agree p s t) (hq : q <+: p) : s.isFile q = t.isFile q := by
  rw [Store.isFile_eq, Store.isFile_eq, h.bytes q hq]

/-- Stores that agree on a path agree on whether it leads through a file. -/
theorem leadsThroughFile_eq (h : Agree p s t) (hq : q <+: p) :
    s.leadsThroughFile q = t.leadsThroughFile q := by
  rw [Bool.eq_iff_iff, leadsThroughFile_iff, leadsThroughFile_iff]
  refine exists_congr fun r => and_congr_right fun hr => ?_
  rw [h.isFile_eq (hr.trans hq)]

theorem prepare (h : Agree p s t) (hp : p ≠ []) : Agree p (s.prepare p) (t.prepare p) := by
  -- The directory for a file is above it, so there is none in its place that was
  -- not there before.
  refine ⟨fun q hq => ?_, ?_⟩
  · rw [(s.prepares p).bytes?_eq, (t.prepares p).bytes?_eq, h.bytes q hq]
  · rw [(s.prepares p).isDirectory_eq (not_prefix_dropLast hp),
      (t.prepares p).isDirectory_eq (not_prefix_dropLast hp), h.directory]

theorem put (h : Agree p s t) (bytes : List UInt8) : Agree p (s.put p bytes) (t.put p bytes) := by
  refine ⟨fun q hq => ?_, ?_⟩
  · rw [bytes?_put, bytes?_put, h.bytes q hq]
  · rw [isDirectory_put fun _ => rfl, isDirectory_put fun _ => rfl, h.directory]

/-- Stores that agree on a path still do after a text is written there, and the
    same goes wrong in both. -/
theorem writeFile (h : Agree p s t) (text : Text) :
    (s.writeFile p text).2 = (t.writeFile p text).2 ∧
      Agree p (s.writeFile p text).1 (t.writeFile p text).1 := by
  unfold Store.writeFile
  rw [h.directory]
  split
  · exact ⟨rfl, h⟩
  · split
    · exact ⟨rfl, h⟩
    · split
      · exact ⟨rfl, h.put _⟩
      · exact ⟨rfl, h.put []⟩

/-- The same happens in both stores. -/
theorem write (h : Agree p s t) (hp : p ≠ []) (text : Text) :
    (s.write p text).2 = (t.write p text).2 ∧
      Agree p (s.write p text).1 (t.write p text).1 := by
  rw [write_eq, write_eq, h.isFile_eq p.dropLast_prefix, h.leadsThroughFile_eq p.dropLast_prefix]
  split
  · exact ⟨rfl, h⟩
  · split
    · exact ⟨rfl, h⟩
    · exact (h.prepare hp).writeFile text

end Agree

/-- Neither path name leads through the other. -/
def Apart (p q : List Text) : Prop :=
  ¬p <+: q ∧ ¬q <+: p

instance : Decidable (Apart p q) :=
  inferInstanceAs (Decidable (_ ∧ _))

theorem Apart.symm (h : Apart p q) : Apart q p :=
  And.symm h

theorem Apart.ne (h : Apart p q) : p ≠ q := fun heq =>
  h.1 (heq ▸ prefix_rfl)

/-- Writing a file changes nothing around path names that are apart from it. -/
theorem Apart.agree_write (h : Apart p q) (s : Store) (text : Text) :
    Agree p (s.write q text).1 s where
  bytes r hr := s.bytes?_write_of_ne (fun heq : r = q => h.2 (heq ▸ hr)) text
  directory := s.isDirectory_write (fun hp => h.1 (hp.trans q.dropLast_prefix)) text

end Store

end Resugar
