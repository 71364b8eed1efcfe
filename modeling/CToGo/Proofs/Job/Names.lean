import CToGo.Job.Config

/-!
# Sources among the artifacts

An artifact is a source by its name alone: something, a dot and the extension. Something is
looked for in the whole path, so that a name which is nothing but a dot and the extension makes
no source where it stands alone, and makes one inside a directory. All other names are told by
the last component.

* `isSource_iff`: the names of sources.
* `isSource_nested`: **names inside directories, and names of targets.**
* `isSource_hidden_nested`: a name for which the directory matters.
-/

namespace CToGo.Job

variable {config : Config}

/-! ## Names -/

theorem stem?_eq_some {ending text front : List Char} :
    stem? ending text = some front ↔ text = front ++ ending := by
  unfold stem?
  constructor
  · intro h
    split at h
    · rename_i hSuffix
      obtain ⟨before, rfl⟩ := List.isSuffixOf_iff_suffix.mp hSuffix
      simpa using h
    · cases h
  · rintro rfl
    simp

theorem isSource_iff {config : Config} {name : String} : config.isSource name ↔
    ∃ front, front ≠ [] ∧ name.toList = front ++ ['.'] ++ config.sourceExtension.toList := by
  unfold Config.isSource
  constructor
  · intro h
    split at h
    · rename_i stem hStem
      obtain ⟨hLast, hLength⟩ := Bool.and_eq_true_iff.mp h
      obtain ⟨front, rfl⟩ := List.getLast?_eq_some_iff.mp (beq_iff_eq.mp hLast)
      refine ⟨front, ?_, stem?_eq_some.mp hStem⟩
      rintro rfl
      simp at hLength
    · cases h
  · rintro ⟨front, hFront, hName⟩
    rw [stem?_eq_some.mpr hName]
    have hLength := List.length_pos_iff.mpr hFront
    simp [hLength]

theorem targetName_of_toList {config : Config} {name : String} {front : List Char}
    (h : name.toList = front ++ ['.'] ++ config.sourceExtension.toList) :
    config.targetName name = String.ofList front ++ "." ++ config.targetExtension := by
  rw [Config.targetName, stem?_eq_some.mpr h, Option.bind_some, stem?_eq_some.mpr rfl,
    Option.getD_some]

/-- Different sources have different targets. -/
theorem targetName_injective {config : Config} {name other : String} (h : config.isSource name)
    (hOther : config.isSource other) (hEq : config.targetName name = config.targetName other) :
    name = other := by
  obtain ⟨front, _, hFront⟩ := isSource_iff.mp h
  obtain ⟨front', _, hFront'⟩ := isSource_iff.mp hOther
  rw [targetName_of_toList hFront, targetName_of_toList hFront'] at hEq
  have hText := congrArg String.toList hEq
  simp only [String.toList_append, String.toList_ofList, List.append_assoc,
    List.append_cancel_right_eq] at hText
  exact String.toList_inj.mp (by rw [hFront, hFront', hText])

/-! ## Directories -/

/-- An extension without slashes is at the end of the last component. -/
theorem exists_front_of_nested {directory base front extension : List Char}
    (hExtension : '/' ∉ extension)
    (h : directory ++ '/' :: base = front ++ '.' :: extension) :
    ∃ rest, front = directory ++ '/' :: rest ∧ base = rest ++ '.' :: extension := by
  rcases List.append_eq_append_iff.mp h with ⟨more, hFront, hBase⟩ | ⟨more, -, hEnd⟩
  · cases more with
    | nil => cases hBase
    | cons c rest =>
      obtain ⟨rfl, hRest⟩ := List.cons.inj hBase
      exact ⟨rest, hFront, hRest⟩
  · -- The slash would belong to the extension.
    have hSlash : '/' ∈ '.' :: extension := hEnd ▸ List.mem_append_right more List.mem_cons_self
    rcases List.mem_cons.mp hSlash with hDot | hSlash
    · cases hDot
    · exact absurd hSlash hExtension

theorem toList_nested (directory base : String) :
    (directory ++ "/" ++ base).toList = directory.toList ++ '/' :: base.toList := by
  simp

/-- A name inside a directory is that of a source if it ends with a dot and the extension,
whether or not something stands in front of the dot. -/
theorem isSource_nested_iff (hExtension : '/' ∉ config.sourceExtension.toList)
    (directory base : String) : config.isSource (directory ++ "/" ++ base) ↔
      ∃ front, base.toList = front ++ ['.'] ++ config.sourceExtension.toList := by
  rw [isSource_iff, toList_nested]
  constructor
  · rintro ⟨front, -, h⟩
    rw [List.append_assoc] at h
    obtain ⟨rest, -, hBase⟩ := exists_front_of_nested hExtension h
    exact ⟨rest, by rw [hBase, List.append_assoc]; rfl⟩
  · rintro ⟨front, hBase⟩
    exact ⟨directory.toList ++ '/' :: front, by simp, by simp [hBase]⟩

theorem not_isSource_extension (config : Config) :
    ¬ config.isSource ("." ++ config.sourceExtension) := by
  rw [isSource_iff]
  rintro ⟨front, hFront, h⟩
  have hDot : ("." ++ config.sourceExtension).toList =
      ['.'] ++ config.sourceExtension.toList := by simp
  rw [hDot] at h
  have hEmpty : [] ++ ['.'] = front ++ ['.'] := List.append_cancel_right h
  exact hFront (List.append_cancel_right hEmpty).symm

/-- The directory matters for a name without anything in front of the dot, and for no other. -/
theorem isSource_nested_iff_or (hExtension : '/' ∉ config.sourceExtension.toList)
    (directory base : String) : config.isSource (directory ++ "/" ++ base) ↔
      config.isSource base ∨ base = "." ++ config.sourceExtension := by
  rw [isSource_nested_iff hExtension, isSource_iff]
  constructor
  · rintro ⟨front, hBase⟩
    by_cases hFront : front = []
    · refine .inr (String.toList_inj.mp ?_)
      rw [hBase, hFront]
      simp
    · exact .inl ⟨front, hFront, hBase⟩
  · rintro (⟨front, -, hBase⟩ | rfl)
    · exact ⟨front, hBase⟩
    · exact ⟨[], by simp⟩

theorem targetName_nested (hExtension : '/' ∉ config.sourceExtension.toList)
    {directory base : String} (h : config.isSource (directory ++ "/" ++ base)) :
    config.targetName (directory ++ "/" ++ base) =
      directory ++ "/" ++ config.targetName base := by
  obtain ⟨front, hBase⟩ := (isSource_nested_iff hExtension directory base).mp h
  have hPath : (directory ++ "/" ++ base).toList =
      directory.toList ++ '/' :: front ++ ['.'] ++ config.sourceExtension.toList := by
    simp [hBase]
  rw [targetName_of_toList hBase, targetName_of_toList hPath]
  apply String.toList_inj.mp
  simp

/-- Where the extension of sources has no slash, a name is that of a source inside a directory
exactly if it is one by itself, except for the name that consists of a dot and the extension. The
target of a source inside a directory is there, too, and different sources have different
targets. -/
theorem isSource_nested (config : Config) (hExtension : '/' ∉ config.sourceExtension.toList) :
    (∀ directory base : String,
      (config.isSource (directory ++ "/" ++ base) = config.isSource base ↔
        base ≠ "." ++ config.sourceExtension) ∧
      (config.isSource (directory ++ "/" ++ base) →
        config.targetName (directory ++ "/" ++ base) =
          directory ++ "/" ++ config.targetName base)) ∧
    ∀ name other : String, config.isSource name → config.isSource other →
      config.targetName name = config.targetName other → name = other := by
  refine ⟨fun directory base => ⟨?_, targetName_nested hExtension⟩,
    fun name other => targetName_injective⟩
  have hNested := isSource_nested_iff_or hExtension directory base
  have hAlone := not_isSource_extension config
  rw [Bool.eq_iff_iff, hNested]
  constructor
  · rintro hSame rfl
    exact hAlone (hSame.mp (.inr rfl))
  · intro hBase
    exact or_iff_left hBase

/-- An empty extension, and a name with dots in a directory with dots. -/
theorem isSource_nested_dotted :
    let config : Config := { sourceExtension := "" }
    '/' ∉ config.sourceExtension.toList ∧ config.isSource ("a.c/.." ++ "/" ++ "b..") = true ∧
      config.targetName ("a.c/.." ++ "/" ++ "b..") = "a.c/.." ++ "/" ++ "b..go" := by
  intro config
  have hExtension : '/' ∉ config.sourceExtension.toList := by decide
  obtain ⟨hSame, hTarget⟩ := (isSource_nested config hExtension).1 "a.c/.." "b.."
  have hSource : config.isSource ("a.c/.." ++ "/" ++ "b..") = true := hSame.mpr (by decide)
  have hName : config.targetName "b.." = "b..go" := by decide +kernel
  rw [hTarget hSource, hName]
  exact ⟨hExtension, hSource, rfl⟩

/-- A name that makes no source where it stands alone makes one inside a directory. -/
theorem isSource_hidden_nested :
    let config : Config := {}
    '/' ∉ config.sourceExtension.toList ∧ config.isSource ".c" = false ∧
      config.isSource ("d" ++ "/" ++ ".c") = true := by
  decide

end CToGo.Job
