import Resugar.Files.Batch

/-!
# Output paths

The result for a file goes to the same place in the output directory, under a
name with another suffix (`PathName.target`). All names that are taken end in
`.js`, so this part is put aside and the rest of the name decides, with one
exception: a name that is all suffix has none. So `.js` is kept as a whole, and
becomes what `.js.js` does.
-/

namespace Resugar

open List PathName

/-- The suffix of the files that are taken. -/
def takenSuffix : Text :=
  ".js"

/-! ## Names -/

namespace PathName

/-- A name less the suffix of the files that are taken. -/
theorem stem_append (base : Text) :
    stem (base ++ takenSuffix) = if base = [] then takenSuffix else base := by
  have hsuffix :
      ((base ++ takenSuffix).reverse.takeWhile (· != CodePoint.ofChar '.')).reverse =
        Text.ofString "js" := by
    rw [reverse_append]
    rfl
  have hrest :
      (base ++ takenSuffix).take
        ((base ++ takenSuffix).length - (Text.ofString "js").length - 1) = base := by
    rw [length_append, show takenSuffix.length = 3 from rfl,
      show (Text.ofString "js").length = 2 from rfl]
    exact take_left
  unfold stem
  dsimp only
  rw [hsuffix, hrest]
  cases base <;> rfl

/-- Two names become the same only if one of them is all suffix. -/
theorem stem_eq_iff {a b : Text} : stem (a ++ takenSuffix) = stem (b ++ takenSuffix) ↔
    a = b ∨ a = [] ∧ b = takenSuffix ∨ a = takenSuffix ∧ b = [] := by
  have hne : takenSuffix ≠ [] := cons_ne_nil _ _
  rw [stem_append, stem_append]
  split <;> split <;> grind

/-- A path name inside a directory. -/
def under (directory : PathName) (path : List Text) : PathName :=
  { directory with parts := directory.parts ++ path }

theorem under_inj {directory : PathName} {p q : List Text} :
    directory.under p = directory.under q ↔ p = q := by
  rw [under, under, mk.injEq, append_right_inj]
  exact and_iff_right rfl

/-- A path name inside a directory leads there from the directory. -/
theorem relativeTo?_under (directory : PathName) (path : List Text) :
    (directory.under path).relativeTo? directory = some path := by
  unfold relativeTo? under
  rw [if_pos ⟨rfl, List.isPrefixOf_iff_prefix.2 (prefix_append ..)⟩, drop_left]

/-! ## Files -/

section Files

variable {p q : List Text} {suffix : Text}

/-- Where the result for a file goes in the output directory. -/
def target (suffix : Text) (p : List Text) : List Text :=
  p.dropLast ++ [stem (p.getLast?.getD []) ++ suffix]

/-- A path name that is taken, cut before the suffix. -/
theorem isTaken_iff :
    isTaken p = true ↔ ∃ directory base, p = directory ++ [base ++ takenSuffix] := by
  unfold isTaken
  rw [Option.any_eq_true]
  constructor
  · rintro ⟨name, hname, hsuffix⟩
    obtain ⟨base, rfl⟩ := isSuffixOf_iff_suffix.1 hsuffix
    obtain ⟨directory, hpath⟩ := getLast?_eq_some_iff.1 hname
    exact ⟨directory, base, hpath⟩
  · rintro ⟨directory, base, rfl⟩
    refine ⟨base ++ takenSuffix, ?_, isSuffixOf_iff_suffix.2 (suffix_append ..)⟩
    rw [getLast?_concat]

theorem target_concat (suffix : Text) (directory : List Text) (name : Text) :
    target suffix (directory ++ [name]) = directory ++ [stem name ++ suffix] := by
  rw [target, dropLast_concat, getLast?_concat, Option.getD_some]

theorem target_ne_nil (suffix : Text) (p : List Text) : target suffix p ≠ [] :=
  append_ne_nil_of_right_ne_nil _ (cons_ne_nil _ _)

/-- A file that is taken has an output path. -/
theorem outputPath_under (hsuffix : isSuffix suffix = true) (hp : isTaken p = true)
    (input output : PathName) :
    outputPath (input.under p) input output suffix = .ok (output.under (target suffix p)) := by
  obtain ⟨directory, base, rfl⟩ := isTaken_iff.1 hp
  rw [outputPath, relativeTo?_under, target_concat]
  unfold withSuffix under
  dsimp only
  rw [← append_assoc, getLast?_concat]
  dsimp only
  rw [if_pos hsuffix, dropLast_concat, append_assoc]

/-- Two files are `.js` and `.js.js` in one directory. -/
def Collide (p q : List Text) : Prop :=
  ∃ directory, p = directory ++ [takenSuffix] ∧ q = directory ++ [takenSuffix ++ takenSuffix]

/-- Two files collide if they are called `.js` and `.js.js` in one directory. -/
theorem collide_iff :
    Collide p q ↔
      p.getLast? = some takenSuffix ∧ q.getLast? = some (takenSuffix ++ takenSuffix) ∧
        p.dropLast = q.dropLast := by
  constructor
  · rintro ⟨directory, rfl, rfl⟩
    rw [getLast?_concat, getLast?_concat, dropLast_concat, dropLast_concat]
    exact ⟨rfl, rfl, rfl⟩
  · rintro ⟨hp, hq, hdirectory⟩
    obtain ⟨directory, rfl⟩ := getLast?_eq_some_iff.1 hp
    obtain ⟨directory', rfl⟩ := getLast?_eq_some_iff.1 hq
    rw [dropLast_concat, dropLast_concat] at hdirectory
    exact ⟨directory, rfl, by rw [hdirectory]⟩

instance : Decidable (Collide p q) :=
  decidable_of_iff _ collide_iff.symm

/-- Two files have one target if and only if they are the same, or `.js` and
    `.js.js` in one directory. -/
theorem target_eq_iff (hp : isTaken p = true) (hq : isTaken q = true) :
    target suffix p = target suffix q ↔ p = q ∨ Collide p q ∨ Collide q p := by
  obtain ⟨d, a, rfl⟩ := isTaken_iff.1 hp
  obtain ⟨e, b, rfl⟩ := isTaken_iff.1 hq
  have hconcat {d e : List Text} {a b : Text} : d ++ [a] = e ++ [b] ↔ d = e ∧ a = b := by
    rw [← concat_eq_append, ← concat_eq_append, concat_inj]
  have hcollide {d e : List Text} {a b : Text} :
      Collide (d ++ [a ++ takenSuffix]) (e ++ [b ++ takenSuffix]) ↔
        a = [] ∧ b = takenSuffix ∧ d = e := by
    rw [collide_iff, getLast?_concat, getLast?_concat, dropLast_concat,
      dropLast_concat, Option.some_inj, Option.some_inj, append_left_eq_self,
      append_left_inj]
  rw [target_concat, target_concat, hcollide, hcollide, hconcat, hconcat, append_left_inj,
    append_left_inj, stem_eq_iff]
  grind

end Files

end PathName

/-- Any two files that are taken have output paths, whatever the directories and
    the suffix are. These are the same if and only if the files are, or they are
    `.js` and `.js.js` in one directory. -/
theorem output_path_eq_iff (input output : PathName) (suffix : Text)
    (hsuffix : isSuffix suffix = true) (f g : List Text)
    (hf : isTaken f = true) (hg : isTaken g = true) :
    ∃ p q, outputPath (input.under f) input output suffix = .ok p ∧
      outputPath (input.under g) input output suffix = .ok q ∧
        (p = q ↔ f = g ∨ PathName.Collide f g ∨ PathName.Collide g f) := by
  refine ⟨_, _, outputPath_under hsuffix hf input output,
    outputPath_under hsuffix hg input output, ?_⟩
  rw [under_inj, target_eq_iff hf hg]

/-- `.js` and `.js.js` have different output paths in different directories. -/
theorem output_path_eq_iff_apart :
    ∃ p q, outputPath ⟨0, ["in", ".js"]⟩ ⟨0, ["in"]⟩ ⟨1, ["out"]⟩ ".jsx" = .ok p ∧
      outputPath ⟨0, ["in", "lib", ".js.js"]⟩ ⟨0, ["in"]⟩ ⟨1, ["out"]⟩ ".jsx" = .ok q ∧
        p ≠ q := by
  obtain ⟨p, q, hp, hq, hiff⟩ := output_path_eq_iff ⟨0, ["in"]⟩ ⟨1, ["out"]⟩ ".jsx" (by decide)
    [".js"] ["lib", ".js.js"] (by decide) (by decide)
  refine ⟨p, q, hp, hq, fun heq => ?_⟩
  rcases hiff.1 heq with hpath | hcollide | hcollide
  · exact absurd hpath (by decide)
  · exact absurd hcollide (by decide)
  · exact absurd hcollide (by decide)

/-- In one directory they have the same, though both are taken. -/
theorem output_path_collides :
    isTaken [".js"] = true ∧ isTaken [".js.js"] = true ∧
      [Text.ofString ".js"] ≠ [Text.ofString ".js.js"] ∧
        outputPath ⟨0, ["in", ".js"]⟩ ⟨0, ["in"]⟩ ⟨0, ["out"]⟩ ".jsx" =
          .ok ⟨0, ["out", ".js.jsx"]⟩ ∧
        outputPath ⟨0, ["in", ".js.js"]⟩ ⟨0, ["in"]⟩ ⟨0, ["out"]⟩ ".jsx" =
          .ok ⟨0, ["out", ".js.jsx"]⟩ :=
  ⟨by decide, by decide, by decide, rfl, rfl⟩

end Resugar
