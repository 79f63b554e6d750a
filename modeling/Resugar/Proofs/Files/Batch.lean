import Mathlib.Data.List.Nodup
import Mathlib.Data.List.TakeWhile
import Resugar.Proofs.Files.OutputPath
import Resugar.Proofs.Files.Store

/-!
# Batches

A batch takes its files one after another (`Job.step`), and all that passes from
one to the next is the tree of files. What a file does (`Job.attempt`) depends
on its bytes and on what is around its target, and changes nothing apart from
the target. So files do not meet if their targets are apart, and if no target is
the place of another input (`Job.Separate`).
-/

namespace Resugar

open List PathName
open Text (ofString)

/-! ## The order of path names -/

namespace Text

variable {s t u : Text}

theorem cons_le_cons {a b : CodePoint} :
    le (a :: s) (b :: t) = true ↔ a < b ∨ a = b ∧ s.le t = true := by
  simp [le]

theorem le_antisymm (hst : s.le t = true) (hts : t.le s = true) : s = t := by
  induction s generalizing t with
  | nil => cases t with
    | nil => rfl
    | cons b t => cases hts
  | cons a s ih =>
    cases t with
    | nil => cases hst
    | cons b t =>
      rw [cons_le_cons] at hst hts
      have := @ih t
      grind

theorem le_trans (hst : s.le t = true) (htu : t.le u = true) : s.le u = true := by
  induction s generalizing t u with
  | nil => rfl
  | cons a s ih =>
    cases t with
    | nil => cases hst
    | cons b t =>
      cases u with
      | nil => cases htu
      | cons c u =>
        rw [cons_le_cons] at hst htu ⊢
        have := @ih t u
        grind

end Text

namespace PathName

variable {p q r : List Text}

theorem cons_le_cons {a b : Text} :
    le (a :: p) (b :: q) = true ↔ a ≠ b ∧ a.le b = true ∨ a = b ∧ le p q = true := by
  rw [le]
  split <;> simp_all

theorem le_trans (hpq : le p q = true) (hqr : le q r = true) : le p r = true := by
  induction p generalizing q r with
  | nil => rfl
  | cons a p ih =>
    cases q with
    | nil => cases hpq
    | cons b q =>
      cases r with
      | nil => cases hqr
      | cons c r =>
        rw [cons_le_cons] at hpq hqr ⊢
        have := @ih q r
        have := @Text.le_trans a b c
        have := @Text.le_antisymm a b
        grind

end PathName

/-! ## Files that are taken -/

namespace Job

variable (j : Job) {s t : Store} {p q : List Text}

theorem source?_eq_some : j.source? p = some q ↔ p = j.input ++ q ∧ isTaken q = true := by
  rw [source?, Option.filter_eq_some_iff]
  refine and_congr_left fun _ => ?_
  unfold relativeTo?
  simp only [List.isPrefixOf_iff_prefix, true_and]
  constructor
  · intro h
    split at h
    case isTrue hprefix =>
      obtain ⟨r, rfl⟩ := hprefix
      rw [← Option.some.inj h, drop_left]
    case isFalse => cases h
  · rintro rfl
    rw [if_pos (prefix_append ..), drop_left]

/-- The files that are taken: those under the input that end in `.js`. -/
theorem mem_sources :
    p ∈ j.sources s ↔ s.isFile (j.input ++ p) = true ∧ isTaken p = true := by
  rw [sources, (mergeSort_perm _ _).mem_iff, mem_filterMap, Store.isFile_iff]
  simp only [source?_eq_some]
  constructor
  · rintro ⟨f, hf, hpath, htaken⟩
    exact ⟨⟨f, hf, hpath⟩, htaken⟩
  · rintro ⟨⟨f, hf, hpath⟩, htaken⟩
    exact ⟨f, hf, hpath, htaken⟩

theorem isTaken_of_mem (h : p ∈ j.sources s) : isTaken p = true :=
  ((mem_sources j).1 h).2

theorem nodup_sources (s : Store) : (j.sources s).Nodup := by
  refine (mergeSort_perm _ _).nodup_iff.2 ?_
  have hmap : (s.files.filterMap fun f => j.source? f.1) =
      (s.files.map Prod.fst).filterMap j.source? := by
    rw [filterMap_map]
    rfl
  rw [hmap]
  refine s.nodup.filterMap fun p q r hp hq => ?_
  rw [((source?_eq_some j).1 hp).1, ((source?_eq_some j).1 hq).1]

/-- Where the result for a file goes. -/
def target (p : List Text) : List Text :=
  j.output ++ PathName.target j.suffix p

theorem target_ne_nil (p : List Text) : j.target p ≠ [] :=
  append_ne_nil_of_right_ne_nil _ (PathName.target_ne_nil _ _)

/-- The store after a file, and what went wrong. -/
def attempt (s : Store) (p : List Text) : Store × Option Fault :=
  j.convert s p (j.target p)

variable {j}

/-- If there is no result for a file, the store stays. -/
theorem attempt_of_error {fault : Fault} (h : j.reconstructFile s p = .error fault) :
    j.attempt s p = (s, some fault) := by
  rw [attempt, convert, h]

/-- The result for a file is written to its target. -/
theorem attempt_of_ok {text : Text} (h : j.reconstructFile s p = .ok text) :
    j.attempt s p = s.write (j.target p) text := by
  rw [attempt, convert, h]

/-- A file changes no other than its target. -/
theorem bytes?_attempt_of_ne (h : q ≠ j.target p) (s : Store) :
    (j.attempt s p).1.bytes? q = s.bytes? q := by
  cases hrec : j.reconstructFile s p with
  | error fault => rw [attempt_of_error hrec]
  | ok text => rw [attempt_of_ok hrec, Store.bytes?_write_of_ne h]

/-- A file changes nothing around a path that is apart from its target. -/
theorem agree_attempt (h : Store.Apart q (j.target p)) (s : Store) :
    Store.Agree q (j.attempt s p).1 s := by
  cases hrec : j.reconstructFile s p with
  | error fault =>
    rw [attempt_of_error hrec]
    exact .refl q s
  | ok text =>
    rw [attempt_of_ok hrec]
    exact h.agree_write s text

/-- Two stores look the same to a file: it has the same bytes in both, and
    around its target they agree. -/
structure Same (j : Job) (p : List Text) (s t : Store) : Prop where
  source : s.bytes? (j.input ++ p) = t.bytes? (j.input ++ p)
  target : Store.Agree (j.target p) s t

theorem Same.reconstructFile_eq (h : j.Same p s t) :
    j.reconstructFile s p = j.reconstructFile t p := by
  rw [reconstructFile, reconstructFile, h.source]

/-- A file fares in the same way in stores that look the same to it. -/
theorem Same.attempt (h : j.Same p s t) :
    (j.attempt s p).2 = (j.attempt t p).2 ∧
      Store.Agree (j.target p) (j.attempt s p).1 (j.attempt t p).1 := by
  cases hrec : j.reconstructFile s p with
  | error fault =>
    rw [attempt_of_error hrec, attempt_of_error (h.reconstructFile_eq.symm.trans hrec)]
    exact ⟨rfl, h.target⟩
  | ok text =>
    rw [attempt_of_ok hrec, attempt_of_ok (h.reconstructFile_eq.symm.trans hrec)]
    exact h.target.write (j.target_ne_nil p) text

/-- To a file whose target and place are apart from the target of another, the
    store looks the same after that. -/
theorem same_attempt (htarget : Store.Apart (j.target p) (j.target q))
    (hsource : j.input ++ p ≠ j.target q) (s : Store) : j.Same p (j.attempt s q).1 s :=
  ⟨bytes?_attempt_of_ne hsource s, agree_attempt htarget s⟩

end Job

/-! ## All files -/

namespace Batch

variable {b : Batch} {p q : List Text} {r : Store × Option Fault}

@[simp]
theorem store_add (b : Batch) (p : List Text) (r : Store × Option Fault) :
    (b.add p r).store = r.1 := by
  obtain ⟨s, _ | fault⟩ := r <;> rfl

theorem processed_add (b : Batch) (p : List Text) (r : Store × Option Fault) :
    (b.add p r).processed = b.processed ++ if r.2.isNone then [p] else [] := by
  obtain ⟨s, _ | fault⟩ := r <;> simp [add]

theorem failed_add (b : Batch) (p : List Text) (r : Store × Option Fault) :
    (b.add p r).failed = b.failed ++ (r.2.map (p, ·)).toList := by
  obtain ⟨s, _ | fault⟩ := r <;> simp [add]

theorem mem_processed_add :
    q ∈ (b.add p r).processed ↔ q ∈ b.processed ∨ q = p ∧ r.2 = none := by
  rw [processed_add, mem_append]
  cases r.2 <;> simp

/-- A file is among the failed ones with what went wrong. -/
theorem mem_failed_add {fault : Fault} :
    (q, fault) ∈ (b.add p r).failed ↔ (q, fault) ∈ b.failed ∨ q = p ∧ r.2 = some fault := by
  rw [failed_add, mem_append]
  cases r.2 <;> simp [eq_comm]

end Batch

namespace Job

variable {j : Job} {s : Store} {p q : List Text} {ps : List (List Text)} {b : Batch} {total : Nat}

variable (j) in
/-- A batch after more files, if nothing stops it. -/
def addAll (b : Batch) (ps : List (List Text)) : Batch :=
  ps.foldl (fun b p => b.add p (j.attempt b.store p)) b

theorem addAll_cons (b : Batch) (p : List Text) (ps : List (List Text)) :
    j.addAll b (p :: ps) = j.addAll (b.add p (j.attempt b.store p)) ps :=
  rfl

/-- Files are gone through in order, whichever way they are cut into batches. -/
theorem addAll_append (b : Batch) (ps qs : List (List Text)) :
    j.addAll b (ps ++ qs) = j.addAll (j.addAll b ps) qs :=
  foldl_append

variable (j) in
/-- The line on a file, with what went wrong. -/
def line (number total : Nat) (p : List Text) (fault : Option Fault) : Text :=
  Batch.line number total p (PathName.target j.suffix p) fault

variable (j) in
/-- The lines on files, if nothing stops the batch. -/
def linesFrom (total : Nat) (b : Batch) : List (List Text) → List Text
  | [] => []
  | p :: ps =>
    j.line (b.count + 1) total p (j.attempt b.store p).2 ::
      linesFrom total (b.add p (j.attempt b.store p)) ps

/-- With a suffix that names can have, a step is only stopped by the console. -/
theorem step_eq (hsuffix : PathName.isSuffix j.suffix = true) (hp : PathName.isTaken p = true)
    (total : Nat) (b : Batch) :
    j.step total b p =
      (b.add p (j.attempt b.store p),
        if j.takesLine (j.line (b.count + 1) total p (j.attempt b.store p).2) then none
        else some .refusedLine) := by
  have hpath : PathName.outputPath ⟨0, j.input ++ p⟩ ⟨0, j.input⟩ ⟨0, j.output⟩ j.suffix =
      .ok ⟨0, j.target p⟩ :=
    PathName.outputPath_under hsuffix hp ⟨0, j.input⟩ ⟨0, j.output⟩
  rw [step, hpath]
  dsimp only
  rw [target, drop_left]
  rfl

/-- A batch goes through its files up to the first line not taken. -/
theorem runFrom_eq (hsuffix : isSuffix j.suffix = true)
    (hps : ∀ p ∈ ps, isTaken p = true) (total : Nat) (b : Batch) :
    j.runFrom total b ps =
      (j.addAll b (ps.take (((j.linesFrom total b ps).takeWhile j.takesLine).length + 1)),
        if (j.linesFrom total b ps).all j.takesLine then none else some .refusedLine) := by
  induction ps generalizing b with
  | nil => rfl
  | cons p ps ih =>
    rw [forall_mem_cons] at hps
    rw [runFrom, step_eq hsuffix hps.1, linesFrom, takeWhile_cons, all_cons]
    cases j.takesLine (j.line (b.count + 1) total p (j.attempt b.store p).2) with
    | true =>
      rw [if_pos rfl, if_pos rfl, length_cons, take_succ_cons, addAll_cons,
        Bool.true_and]
      exact ih hps.2 _
    | false => rfl

/-- Some files do not meet: their targets are apart, and none is the place of
    another of them. -/
structure Strangers (j : Job) (ps : List (List Text)) : Prop where
  targets : ps.Pairwise fun p q => Store.Apart (j.target p) (j.target q)
  places : ∀ p ∈ ps, ∀ q ∈ ps, p ≠ q → j.input ++ p ≠ j.target q

/-- To each of the other files the store looks the same after the first. -/
theorem Strangers.same (h : j.Strangers (p :: ps)) (hq : q ∈ ps) (s : Store) :
    j.Same q (j.attempt s p).1 s := by
  have hapart := (pairwise_cons.1 h.targets).1 q hq
  have hne : q ≠ p := fun heq => hapart.ne (heq ▸ rfl)
  exact same_attempt hapart.symm
    (h.places q (mem_cons_of_mem _ hq) p mem_cons_self hne) s

theorem length_linesFrom (total : Nat) (b : Batch) (ps : List (List Text)) :
    (j.linesFrom total b ps).length = ps.length := by
  induction ps generalizing b with
  | nil => rfl
  | cons p ps ih => rw [linesFrom, length_cons, length_cons, ih]

/-- Nothing stops a run if and only if the console takes all its lines. -/
theorem run_snd_eq_none_iff (hsuffix : isSuffix j.suffix = true) (s : Store) :
    (j.run s).2 = none ↔
      ∀ line ∈ j.linesFrom (j.sources s).length { store := s } (j.sources s),
        j.takesLine line = true := by
  rw [run, runFrom_eq hsuffix fun p hp => j.isTaken_of_mem hp, ← all_eq_true]
  split <;> simp_all

/-- A run goes through the first of the files, and through all of them if
    nothing stops it. -/
theorem exists_done (hsuffix : isSuffix j.suffix = true) (s : Store) :
    ∃ done, done <+: j.sources s ∧ (j.run s).1 = j.addAll { store := s } done ∧
      ((j.run s).2 = none → done = j.sources s) := by
  have htaken (p : List Text) (hp : p ∈ j.sources s) : isTaken p = true :=
    j.isTaken_of_mem hp
  have hrun := runFrom_eq hsuffix htaken (j.sources s).length { store := s }
  refine ⟨_, take_prefix _ _, congrArg Prod.fst hrun, fun hnone => ?_⟩
  rw [takeWhile_eq_self_iff.2 ((run_snd_eq_none_iff hsuffix s).1 hnone), length_linesFrom]
  exact take_of_length_le (Nat.le_succ _)

/-! ## Files alone -/

variable (j)

/-- The store in which a file is the only one that is taken. -/
def only (s : Store) (p : List Text) : Store where
  files := s.files.filter fun f => f.1 == j.input ++ p || (j.source? f.1).isNone
  directories := s.directories
  nodup := (filter_sublist.map _).nodup s.nodup

variable {j}

variable (j) in
/-- The lines of a batch, if each file fares as it does alone. -/
def lines (s : Store) : List Text :=
  (j.sources s).mapIdx fun i p =>
    j.line (i + 1) (j.sources s).length p (j.attempt s p).2

end Job

/-- The bytes of `var a = require("\ud800");`. -/
def surrogateSource : Source :=
  "var a = require(\"\\ud800\");".toUTF8.toList

/-- A job for files with no statement in them, and for one that loads a module
    whose name has a surrogate. The console takes lines without closing tags. -/
def sampleJob : Job where
  grammar source := some <|
    if source = surrogateSource then
      .node ⟨"program", none, true, false, 0, 26⟩
        [.node ⟨"variable_declaration", none, true, false, 0, 26⟩
          [.node ⟨"var", none, false, false, 0, 3⟩ [],
            .node ⟨"variable_declarator", none, true, false, 4, 25⟩
              [.node ⟨"identifier", some "name", true, false, 4, 5⟩ [],
                .node ⟨"=", none, false, false, 6, 7⟩ [],
                .node ⟨"call_expression", some "value", true, false, 8, 25⟩
                  [.node ⟨"identifier", some "function", true, false, 8, 15⟩ [],
                    .node ⟨"arguments", some "arguments", true, false, 15, 25⟩
                      [.node ⟨"(", none, false, false, 15, 16⟩ [],
                        .node ⟨"string", none, true, false, 16, 24⟩
                          [.node ⟨"\"", none, false, false, 16, 17⟩ [],
                            .node ⟨"escape_sequence", none, true, false, 17, 23⟩ [],
                            .node ⟨"\"", none, false, false, 23, 24⟩ []],
                        .node ⟨")", none, false, false, 24, 25⟩ []]]],
            .node ⟨";", none, false, false, 25, 26⟩ []]]
    else .node ⟨"program", none, true, false, 0, 0⟩ []
  takesLine line := line.tails.all fun rest => !Text.startsWith rest "[/"
  input := ["in"]
  output := ["out"]

/-- One file whose bytes are no text, one with nothing in it, and one with a
    surrogate in its result. -/
def sampleStore : Store where
  files :=
    [(["in", "a.js"], [255]), (["in", "b.js"], []), (["in", "c.js"], surrogateSource)]

theorem sources_sampleStore :
    sampleJob.sources sampleStore =
      [[ofString "a.js"], [ofString "b.js"], [ofString "c.js"]] :=
  mergeSort_of_pairwise (by decide)

/-- Of the three files one is processed, and two fail, each in its own way. -/
theorem run_sampleStore :
    (sampleJob.run sampleStore).1.processed = [[ofString "b.js"]] ∧
      (sampleJob.run sampleStore).1.failed =
        [([ofString "a.js"], Fault.malformedBytes),
          ([ofString "c.js"], Fault.loneSurrogate)] := by
  rw [Job.run, sources_sampleStore]
  decide +kernel

-- The console ends the batch at `x[/b].js`, after its result is written.
example :
    let s : Store := { files := [(["in", "x[", "b].js"], []), (["in", "y.js"], [])] }
    (sampleJob.run s).1.processed = [[ofString "x[", ofString "b].js"]] ∧
      (sampleJob.run s).1.failed = [] ∧ (sampleJob.run s).2 = some .refusedLine := by
  intro s
  have hsources : sampleJob.sources s =
      [[ofString "x[", ofString "b].js"], [ofString "y.js"]] :=
    mergeSort_of_pairwise (by decide)
  rw [Job.run, hsources]
  decide +kernel

-- In one directory a result can be an input: `a.x.js` is no text, but it is written
-- before it is read.
example :
    let j := { sampleJob with suffix := ".x.js", output := ["in"] }
    let s : Store := { files := [(["in", "a.js"], []), (["in", "a.x.js"], [255])] }
    (j.run s).1.failed = [] ∧
      (j.attempt s ["a.x.js"]).2 = some .malformedBytes := by
  intro j s
  have hsources : j.sources s = [[ofString "a.js"], [ofString "a.x.js"]] :=
    mergeSort_of_pairwise (by decide)
  rw [Job.run, hsources]
  decide +kernel

/-! ## What failures leave -/

namespace Job

variable {j : Job} {s : Store} {p r : List Text} {ps : List (List Text)}

/-- A batch changes only the targets of its files. -/
theorem bytes?_addAll_of_ne (h : ∀ q ∈ ps, r ≠ j.target q) (b : Batch) :
    (j.addAll b ps).store.bytes? r = b.store.bytes? r := by
  induction ps generalizing b with
  | nil => rfl
  | cons q ps ih =>
    rw [forall_mem_cons] at h
    rw [addAll_cons, ih h.2, Batch.store_add, bytes?_attempt_of_ne h.1]

/-- Other files do not make a file a processed one. -/
theorem mem_processed_addAll (h : p ∉ ps) (b : Batch) :
    p ∈ (j.addAll b ps).processed ↔ p ∈ b.processed := by
  induction ps generalizing b with
  | nil => rfl
  | cons q ps ih =>
    rw [mem_cons, not_or] at h
    rw [addAll_cons, ih h.2, Batch.mem_processed_add, or_iff_left fun hq => h.1 hq.1]

/-- Nor a failed one. -/
theorem mem_failed_addAll {fault : Fault} (h : p ∉ ps) (b : Batch) :
    (p, fault) ∈ (j.addAll b ps).failed ↔ (p, fault) ∈ b.failed := by
  induction ps generalizing b with
  | nil => rfl
  | cons q ps ih =>
    rw [mem_cons, not_or] at h
    rw [addAll_cons, ih h.2, Batch.mem_failed_add, or_iff_left fun hq => h.1 hq.1]

/-- The name of a target can be written, but its text has a surrogate. -/
structure Unwritable (j : Job) (s : Store) (p : List Text) : Prop where
  name : (j.target p).getLast?.bind nameFault? = none
  text : ∃ text, j.reconstructFile s p = .ok text ∧ ∃ c ∈ text, c.isSurrogate = true

/-- What a file leaves at its target, if no file was there. -/
theorem isFile_attempt_iff (hfree : s.isFile (j.target p) = false) :
    ((j.attempt s p).1.isFile (j.target p) = true ↔
      (j.attempt s p).2 = none ∨
        (j.attempt s p).2 = some .loneSurrogate ∧ j.Unwritable s p) ∧
    ((j.attempt s p).2 = some .loneSurrogate → j.Unwritable s p →
      (j.attempt s p).1.bytes? (j.target p) = some []) := by
  cases hrec : j.reconstructFile s p with
  | error fault =>
    have hwritable : ¬j.Unwritable s p := fun h => by
      obtain ⟨text, htext, -⟩ := h.text
      cases hrec.symm.trans htext
    simp [attempt_of_error hrec, hfree, hwritable]
  | ok text =>
    obtain ⟨t, ht, hwrites⟩ := s.write_writes (j.target p) text
    rw [attempt_of_ok hrec]
    generalize s.write (j.target p) text = result at hwrites ⊢
    cases hwrites with
    | stopped hfault =>
      -- A surrogate in the name of the target is the same fault, but the target is
      -- not opened then.
      have hwritable (hsurrogate : _ = Fault.loneSurrogate) : ¬j.Unwritable s p := fun h =>
        hfault hsurrogate h.name
      have hfile : t.isFile (j.target p) = false := by
        rw [Store.isFile_eq, ht.bytes?_eq, ← Store.isFile_eq, hfree]
      simp_all
    | emptied hname hbytes =>
      have hunwritable : j.Unwritable s p :=
        ⟨hname, text, hrec, Utf8.encode?_eq_none_iff.1 hbytes⟩
      simp [Store.isFile_eq, Store.bytes?_put, hunwritable]
    | written => simp [Store.isFile_eq, Store.bytes?_put]

variable (j) in
/-- The store that a file finds at its turn. -/
def before (s : Store) (p : List Text) : Store :=
  (j.addAll { store := s } ((j.sources s).takeWhile (· != p))).store

/-- A file with a target of its own finds there what was there before the batch,
    and leaves there what the batch does. -/
theorem turn_cases (hsuffix : isSuffix j.suffix = true)
    (htarget : ∀ q ∈ j.sources s, j.target p = j.target q → p = q) :
    (j.before s p).bytes? (j.target p) = s.bytes? (j.target p) ∧
      ((p ∉ (j.run s).1.processed ∧ (∀ fault, (p, fault) ∉ (j.run s).1.failed) ∧
          (j.run s).1.store.bytes? (j.target p) = s.bytes? (j.target p)) ∨
        (p ∈ (j.run s).1.processed ↔ (j.attempt (j.before s p) p).2 = none) ∧
          (∀ fault, (p, fault) ∈ (j.run s).1.failed ↔
            (j.attempt (j.before s p) p).2 = some fault) ∧
          (j.run s).1.store.bytes? (j.target p) =
            (j.attempt (j.before s p) p).1.bytes? (j.target p)) := by
  have hne {qs : List (List Text)} (hqs : qs ⊆ j.sources s) (hnot : p ∉ qs) :
      ∀ q ∈ qs, j.target p ≠ j.target q := fun q hq heq =>
    hnot (htarget q (hqs hq) heq ▸ hq)
  have hnotBefore : p ∉ (j.sources s).takeWhile (· != p) := fun hmem =>
    absurd (mem_takeWhile_imp hmem) (by simp)
  refine ⟨bytes?_addAll_of_ne (hne (takeWhile_subset _) hnotBefore) _, ?_⟩
  obtain ⟨done, hprefix, hrun, -⟩ := exists_done hsuffix s
  rw [hrun]
  by_cases hdone : p ∈ done
  · right
    -- The files before it are the same whether or not the batch is stopped after it.
    obtain ⟨pre, post, rfl, hpre⟩ := eq_append_cons_of_mem hdone
    have hbefore : (j.sources s).takeWhile (· != p) = pre := by
      obtain ⟨rest, hrest⟩ := hprefix
      rw [← hrest, append_assoc, takeWhile_append_of_pos fun q hq => by grind]
      simp
    have hnodup := (j.nodup_sources s).sublist hprefix.sublist
    rw [nodup_middle, nodup_cons, mem_append, not_or] at hnodup
    have hpost : post ⊆ j.sources s := fun q hq =>
      hprefix.subset (mem_append_right _ (mem_cons_of_mem _ hq))
    rw [before, hbefore, addAll_append, addAll_cons]
    refine ⟨?_, fun fault => ?_, ?_⟩
    · rw [mem_processed_addAll hnodup.1.2, Batch.mem_processed_add, mem_processed_addAll hpre]
      simp
    · rw [mem_failed_addAll hnodup.1.2, Batch.mem_failed_add, mem_failed_addAll hpre]
      simp
    · rw [bytes?_addAll_of_ne (hne hpost hnodup.1.2), Batch.store_add]
  · left
    refine ⟨?_, fun fault => ?_, bytes?_addAll_of_ne (hne hprefix.subset hdone) _⟩
    · rw [mem_processed_addAll hdone]
      exact not_mem_nil
    · rw [mem_failed_addAll hdone]
      exact not_mem_nil

end Job

/-- Let a file that is taken have a target of its own, where no file is. After
    the batch there is a file if and only if this one is processed, or it has
    failed so late that its target was opened: its result has a surrogate, and
    the name of the target can be written. An empty file is left then. -/
theorem file_at_target_iff (j : Job) (hsuffix : isSuffix j.suffix = true) (s : Store)
    (p : List Text) (hp : p ∈ j.sources s)
    (hcollide : ∀ q ∈ j.sources s, ¬PathName.Collide p q ∧ ¬PathName.Collide q p)
    (hfree : s.isFile (j.target p) = false) :
    ((j.run s).1.store.isFile (j.target p) = true ↔
      p ∈ (j.run s).1.processed ∨
        (p, Fault.loneSurrogate) ∈ (j.run s).1.failed ∧ j.Unwritable (j.before s p) p) ∧
    ((p, Fault.loneSurrogate) ∈ (j.run s).1.failed → j.Unwritable (j.before s p) p →
      (j.run s).1.store.bytes? (j.target p) = some []) := by
  have htarget (q : List Text) (hq : q ∈ j.sources s) (heq : j.target p = j.target q) :
      p = q := by
    rcases (PathName.target_eq_iff (j.isTaken_of_mem hp) (j.isTaken_of_mem hq)).1
      (append_cancel_left heq) with hpath | hpq | hqp
    · exact hpath
    · exact absurd hpq (hcollide q hq).1
    · exact absurd hqp (hcollide q hq).2
  obtain ⟨hbefore, ⟨hprocessed, hfailed, hbytes⟩ | ⟨hprocessed, hfailed, hbytes⟩⟩ :=
    Job.turn_cases hsuffix htarget
  · -- The batch was stopped before this file.
    rw [Store.isFile_eq, hbytes, ← Store.isFile_eq, hfree]
    simp [hprocessed, hfailed]
  · rw [Store.isFile_eq, hbytes, hprocessed, hfailed, ← Store.isFile_eq]
    apply Job.isFile_attempt_iff
    rw [Store.isFile_eq, hbefore, ← Store.isFile_eq, hfree]

/-- Of the files that fail, one leaves nothing and one leaves an empty file. -/
theorem file_at_target_iff_sample :
    (sampleJob.run sampleStore).1.store.isFile (sampleJob.target ["a.js"]) = false ∧
      (sampleJob.run sampleStore).1.store.isFile (sampleJob.target ["b.js"]) = true ∧
      sampleJob.Unwritable (sampleJob.before sampleStore ["c.js"]) ["c.js"] ∧
      (sampleJob.run sampleStore).1.store.bytes? (sampleJob.target ["c.js"]) = some [] := by
  have hfile (p : List Text) (hp : p ∈ sampleJob.sources sampleStore)
      (hfree : sampleStore.isFile (sampleJob.target p) = false) :=
    file_at_target_iff sampleJob (by decide) sampleStore p hp
      (by rw [sources_sampleStore] at hp ⊢; revert p; decide) hfree
  obtain ⟨hprocessed, hfailed⟩ := run_sampleStore
  obtain ⟨ha, -⟩ := hfile ["a.js"] (by rw [sources_sampleStore]; decide) (by decide)
  obtain ⟨hb, -⟩ := hfile ["b.js"] (by rw [sources_sampleStore]; decide) (by decide)
  obtain ⟨hc, hempty⟩ := hfile ["c.js"] (by rw [sources_sampleStore]; decide) (by decide)
  rw [hprocessed, hfailed] at ha hb hc
  rw [hfailed] at hempty
  have hleft : (sampleJob.run sampleStore).1.store.isFile (sampleJob.target ["c.js"]) = true := by
    rw [Job.run, sources_sampleStore]
    decide +kernel
  -- The file is there and not processed, so it was opened before it failed.
  have hunwritable := ((hc.1 hleft).resolve_left (by decide)).2
  refine ⟨Bool.eq_false_iff.2 fun hfile => ?_, hb.2 (.inl (by decide)), hunwritable,
    hempty (by decide) hunwritable⟩
  rcases ha.1 hfile with hmem | ⟨hmem, -⟩
  · exact absurd hmem (by decide)
  · exact absurd hmem (by decide)

/-- The module name in the import has a surrogate: the file fails, and an empty
    file is left. -/
theorem failed_file_left_empty :
    let s : Store := { files := [(["in", "a.js"], surrogateSource)] }
    (sampleJob.run s).1.processed = [] ∧
      (sampleJob.run s).1.failed = [([ofString "a.js"], Fault.loneSurrogate)] ∧
        (sampleJob.run s).1.store.bytes? (sampleJob.target ["a.js"]) = some [] := by
  intro s
  have hsources : sampleJob.sources s = [[ofString "a.js"]] :=
    mergeSort_of_pairwise (by decide)
  rw [Job.run, hsources]
  decide +kernel

end Resugar
