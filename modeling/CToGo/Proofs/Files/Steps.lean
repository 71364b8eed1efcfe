import CToGo.Proofs.Files.Places

/-!
# The steps of a path

Of the components of a path some lead nowhere: those between two slashes, and the dot. The
others are its steps. Names that are put after a path are its last steps, whatever the path is,
and names that are put together with slashes can be told from the text.

* `steps`: the components of a path that lead somewhere.
* `components_intercalate`: the names in a text.
* `steps_foldl_join`, `foldl_join_eq`: the steps and the text of a path with names after it.
* `components_foldl_join`, `parent_join_foldl`: its components, and the path without the last name.
-/

namespace CToGo.Files

/-- The components that lead from one place to another one. -/
def steps (path : String) : List String :=
  (components path).filter fun c => c ≠ "" ∧ c ≠ "."

theorem components_slash (path : String) : components (path ++ "/") = components path ++ [""] := by
  have hEmpty := components_append_slash path ""
  rwa [String.append_empty] at hEmpty

/-- Components that lead nowhere can be left out. -/
theorem foldl_descend_filter (names : List String) (place : Place) :
    (names.filter fun c => c ≠ "" ∧ c ≠ ".").foldl FileTree.descend place =
      names.foldl FileTree.descend place := by
  induction names generalizing place with
  | nil => rfl
  | cons name names ih =>
    by_cases hEmpty : name = "" ∨ name = "."
    · rw [List.filter_cons_of_neg (by rcases hEmpty with rfl | rfl <;> decide), ih,
        List.foldl_cons, FileTree.descend, if_pos hEmpty]
    · rw [List.filter_cons_of_pos (by simpa using hEmpty), List.foldl_cons, ih, List.foldl_cons]

theorem FileTree.foldl_descend_steps (t : FileTree) (path : String) :
    (steps path).foldl descend (t.origin path) = t.placeOf path :=
  foldl_descend_filter _ _

/-! ## Names put together -/

theorem components_intercalate_of_no_slash {names : List String} (hNil : names ≠ [])
    (h : ∀ name ∈ names, '/' ∉ name.toList) : components ("/".intercalate names) = names := by
  induction names with
  | nil => exact absurd rfl hNil
  | cons name names ih =>
    obtain ⟨hName, hNames⟩ := List.forall_mem_cons.mp h
    cases names with
    | nil => rw [String.intercalate_singleton, components_of_no_slash hName]
    | cons next names =>
      rw [String.intercalate_cons_cons, components_append_slash, components_of_no_slash hName,
        ih (List.cons_ne_nil _ _) hNames, List.singleton_append]

theorem components_intercalate {names : List String} (hNil : names ≠ [])
    (h : ∀ name ∈ names, IsName name) : components ("/".intercalate names) = names :=
  components_intercalate_of_no_slash hNil fun name hName => (h name hName).no_slash

theorem intercalate_components (path : String) : "/".intercalate (components path) = path :=
  components_injective <| components_intercalate_of_no_slash (components_ne_nil path)
    fun _ => not_mem_of_mem_components

/-! ## Names after a path -/

theorem steps_append_slash (front rest : String) :
    steps (front ++ "/" ++ rest) = steps front ++ steps rest := by
  rw [steps, components_append_slash, List.filter_append, steps, steps]

theorem steps_of_isName {name : String} (h : IsName name) : steps name = [name] := by
  rw [steps, components_of_no_slash h.no_slash]
  simp [h.ne_empty, h.ne_here]

theorem steps_join {name : String} (h : IsName name) (base : String) :
    steps (join base name) = steps base ++ [name] := by
  by_cases hBase : base = ""
  · subst hBase
    rw [join_empty h, steps_of_isName h]
    rfl
  · obtain ⟨front, hJoin, hFront⟩ := join_eq h hBase
    have hSteps : steps base = steps front := by
      rcases hFront with rfl | rfl
      · rfl
      · rw [steps, components_slash, List.filter_append]
        exact List.append_nil _
    rw [hJoin, steps_append_slash, steps_of_isName h, hSteps]

theorem steps_foldl_join {names : List String} (h : ∀ name ∈ names, IsName name)
    (base : String) : steps (names.foldl join base) = steps base ++ names := by
  induction names generalizing base with
  | nil => exact (List.append_nil _).symm
  | cons name names ih =>
    obtain ⟨hName, hNames⟩ := List.forall_mem_cons.mp h
    rw [List.foldl_cons, ih hNames, steps_join hName, List.append_assoc, List.singleton_append]

theorem isAbsolute_foldl_join {names : List String} (h : ∀ name ∈ names, IsName name)
    (base : String) : isAbsolute (names.foldl join base) = isAbsolute base := by
  induction names generalizing base with
  | nil => rfl
  | cons name names ih =>
    obtain ⟨hName, hNames⟩ := List.forall_mem_cons.mp h
    rw [List.foldl_cons, ih hNames, isAbsolute_join hName]

theorem FileTree.origin_foldl_join (t : FileTree) {names : List String}
    (h : ∀ name ∈ names, IsName name) (base : String) :
    t.origin (names.foldl join base) = t.origin base := by
  rw [origin, isAbsolute_foldl_join h, origin]

theorem join_ne_empty {name : String} (h : IsName name) (base : String) :
    join base name ≠ "" := by
  intro hEmpty
  have hSteps := steps_join h base
  rw [hEmpty] at hSteps
  exact List.append_ne_nil_of_right_ne_nil _ (List.cons_ne_nil _ _) hSteps.symm

/-- Names after a path end with a name. -/
theorem exists_join_eq {names : List String} (hNil : names ≠ [])
    (h : ∀ name ∈ names, IsName name) (base : String) :
    ∃ above last, IsName last ∧ names.foldl join base = join above last := by
  obtain ⟨before, last, rfl⟩ := (List.eq_nil_or_concat names).resolve_left hNil
  rw [List.concat_eq_append] at h ⊢
  refine ⟨before.foldl join base, last, h last (by simp), ?_⟩
  rw [List.foldl_append, List.foldl_cons, List.foldl_nil]

theorem foldl_join_ne_empty {names : List String} (hNil : names ≠ [])
    (h : ∀ name ∈ names, IsName name) (base : String) : names.foldl join base ≠ "" := by
  obtain ⟨above, last, hLast, hEq⟩ := exists_join_eq hNil h base
  rw [hEq]
  exact join_ne_empty hLast above

theorem join_join {first second : String} (hFirst : IsName first) (hSecond : IsName second)
    (base : String) : join (join base first) second = join base first ++ "/" ++ second := by
  rw [join, if_neg hSecond.not_isAbsolute, if_neg]
  rintro (hEmpty | hSlash)
  · exact join_ne_empty hFirst base (String.isEmpty_iff.mp hEmpty)
  · exact not_endsWithSlash_join hFirst base hSlash

/-- Names after a name are parted from it and from each other by slashes. -/
theorem foldl_join_eq {name : String} (hName : IsName name) {names : List String}
    (hNil : names ≠ []) (h : ∀ name ∈ names, IsName name) (base : String) :
    names.foldl join (join base name) = join base name ++ "/" ++ "/".intercalate names := by
  induction names generalizing base name with
  | nil => exact absurd rfl hNil
  | cons next names ih =>
    obtain ⟨hNext, hNames⟩ := List.forall_mem_cons.mp h
    cases names with
    | nil => rw [List.foldl_cons, List.foldl_nil, String.intercalate_singleton, join_join hName hNext]
    | cons third names =>
      rw [List.foldl_cons, ih hNext (List.cons_ne_nil _ _) hNames, join_join hName hNext,
        String.intercalate_cons_cons]
      simp only [String.append_assoc]

/-! ## Components before a name -/

/-- The components that stand before a name after the path. -/
def front (base : String) : List String :=
  if base = "" then []
  else if endsWithSlash base then (components base).dropLast
  else components base

theorem components_join {name : String} (h : IsName name) (base : String) :
    components (join base name) = front base ++ [name] := by
  unfold front
  split
  · rename_i hBase
    rw [hBase, join_empty h, components_of_no_slash h.no_slash, List.nil_append]
  · rename_i hBase
    have hEmpty : ¬ base.isEmpty := mt String.isEmpty_iff.mp hBase
    rw [join, if_neg h.not_isAbsolute]
    split
    · rename_i hSlash
      obtain ⟨before, rfl⟩ := eq_append_slash (hSlash.resolve_left hEmpty)
      rw [if_pos (hSlash.resolve_left hEmpty), components_append_slash,
        components_of_no_slash h.no_slash, components_slash, List.dropLast_concat]
    · rename_i hSlash
      rw [if_neg (not_or.mp hSlash).2, components_append_slash,
        components_of_no_slash h.no_slash]

theorem front_join {name : String} (h : IsName name) (base : String) :
    front (join base name) = components (join base name) := by
  rw [front, if_neg (join_ne_empty h base), if_neg (not_endsWithSlash_join h base)]

theorem components_foldl_join {names : List String} (hNil : names ≠ [])
    (h : ∀ name ∈ names, IsName name) (base : String) :
    components (names.foldl join base) = front base ++ names := by
  induction names generalizing base with
  | nil => exact absurd rfl hNil
  | cons name names ih =>
    obtain ⟨hName, hNames⟩ := List.forall_mem_cons.mp h
    cases names with
    | nil => exact components_join hName base
    | cons next names =>
      rw [List.foldl_cons, ih (List.cons_ne_nil _ _) hNames, front_join hName,
        components_join hName, List.append_assoc, List.singleton_append]

theorem components_join_foldl {names : List String} {name : String} (hNil : names ≠ [])
    (h : ∀ name ∈ names, IsName name) (hName : IsName name) (base : String) :
    components (join (names.foldl join base) name) =
      components (names.foldl join base) ++ [name] := by
  obtain ⟨above, last, hLast, hEq⟩ := exists_join_eq hNil h base
  rw [hEq, components_join hName, front_join hLast]

theorem trimmed_concat {name : String} (h : IsName name) (names : List String) :
    trimmed (names ++ [name]) = names ++ [name] := by
  cases names with
  | nil => rfl
  | cons first names => simp [trimmed, h.ne_empty, h.ne_here]

theorem parent_join {name next : String} (h : IsName name) (hNext : IsName next)
    (base : String) : parent (join (join base name) next) = join base name := by
  have hTrimmed : trimmed (trimmed (components (join (join base name) next))).dropLast =
      components (join base name) := by
    rw [components_join hNext, trimmed_concat hNext, List.dropLast_concat, front_join h,
      components_join h, trimmed_concat h]
  have hText := intercalate_components (join base name)
  rw [parent, hTrimmed]
  rw [components_join h] at hText ⊢
  split
  · rename_i hEq
    have hLast := congrArg List.getLast? hEq
    rw [List.getLast?_concat] at hLast
    exact absurd (Option.some.inj hLast) h.ne_empty
  · exact hText

theorem parent_join_foldl {names : List String} {name : String} (hNil : names ≠ [])
    (h : ∀ name ∈ names, IsName name) (hName : IsName name) (base : String) :
    parent (join (names.foldl join base) name) = names.foldl join base := by
  obtain ⟨above, last, hLast, hEq⟩ := exists_join_eq hNil h base
  rw [hEq, parent_join hLast hName]

end CToGo.Files
