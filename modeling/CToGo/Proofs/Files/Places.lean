import CToGo.Files.Tree

/-!
# The places that paths name

A path of plain names below another path names a place below that path's place, by exactly
these names. So different lists of names below one path name different places, whatever the
path is.

* `IsName`: a text that is one proper component.
* `components_injective`: a path can be told from its components.
* `placeOf_foldl_join`: the place that names below a path lead to.
-/

namespace CToGo.Files

/-- Names can be put after a path and lead one step down. -/
structure IsName (name : String) : Prop where
  no_slash : '/' ∉ name.toList
  ne_empty : name ≠ ""
  ne_here : name ≠ "."
  ne_up : name ≠ ".."

/-! ## Components -/

theorem components_injective {path other : String} (h : components path = components other) :
    path = other := by
  have hPieces : path.toList.splitOn '/' = other.toList.splitOn '/' :=
    (List.map_inj_right fun _ _ hEq => String.ofList_inj.mp hEq).mp h
  have hText := congrArg (['/'].intercalate ·) hPieces
  simp only [List.intercalate_splitOn] at hText
  exact String.toList_inj.mp hText

theorem not_mem_of_mem_splitOn {α : Type} [BEq α] [LawfulBEq α] {sep : α} {xs piece : List α}
    (h : piece ∈ xs.splitOn sep) : sep ∉ piece := by
  induction xs generalizing piece with
  | nil =>
    rw [List.splitOn_nil, List.mem_singleton] at h
    subst h
    exact List.not_mem_nil
  | cons x xs ih =>
    rw [List.splitOn_cons_eq_if_modifyHead] at h
    split at h
    · rcases List.mem_cons.mp h with rfl | h
      · exact List.not_mem_nil
      · exact ih h
    · rename_i hx
      cases hPieces : xs.splitOn sep with
      | nil => exact absurd hPieces (List.splitOn_ne_nil _ _)
      | cons first rest =>
        rw [hPieces] at h ih
        rcases List.mem_cons.mp h with rfl | h
        · intro hMem
          rcases List.mem_cons.mp hMem with rfl | hMem
          · exact hx BEq.rfl
          · exact ih List.mem_cons_self hMem
        · exact ih (List.mem_cons_of_mem _ h)

theorem not_mem_of_mem_components {path component : String} (h : component ∈ components path) :
    '/' ∉ component.toList := by
  obtain ⟨piece, hPiece, rfl⟩ := List.mem_map.mp h
  rw [String.toList_ofList]
  exact not_mem_of_mem_splitOn hPiece

theorem components_ne_nil (path : String) : components path ≠ [] := by
  simp [components]

theorem components_append_slash (path other : String) :
    components (path ++ "/" ++ other) = components path ++ components other := by
  have hText : (path ++ "/" ++ other).toList = path.toList ++ '/' :: other.toList := by simp
  rw [components, hText, List.splitOn_append_cons_self, List.map_append]
  rfl

theorem components_of_no_slash {name : String} (h : '/' ∉ name.toList) :
    components name = [name] := by
  rw [components, List.splitOn_eq_singleton h, List.map_singleton, String.ofList_toList]

/-! ## Names below a path -/

theorem IsName.not_isAbsolute {name : String} (h : IsName name) : ¬ isAbsolute name := by
  intro hAbsolute
  exact h.no_slash (List.mem_of_head? (by simpa [isAbsolute] using hAbsolute))

theorem eq_append_slash {path : String} (h : endsWithSlash path) :
    ∃ front, path = front ++ "/" := by
  obtain ⟨front, hFront⟩ := List.getLast?_eq_some_iff.mp (beq_iff_eq.mp h)
  exact ⟨String.ofList front, String.toList_inj.mp (by simp [hFront])⟩

/-- A path and a name after it are parted by a slash, which may be the last of the path. -/
theorem join_eq {name : String} (h : IsName name) {base : String} (hBase : base ≠ "") :
    ∃ front, join base name = front ++ "/" ++ name ∧
      (base = front ∨ base = front ++ "/") := by
  rw [join, if_neg h.not_isAbsolute]
  split
  · rename_i hEnd
    rcases hEnd with hEmpty | hSlash
    · exact absurd (String.isEmpty_iff.mp hEmpty) hBase
    · obtain ⟨front, rfl⟩ := eq_append_slash hSlash
      exact ⟨front, rfl, .inr rfl⟩
  · exact ⟨base, rfl, .inl rfl⟩

theorem join_empty {name : String} (h : IsName name) : join "" name = name := by
  rw [join, if_neg h.not_isAbsolute]
  simp

theorem foldl_descend_append_slash (front : String) (place : Place) :
    (components (front ++ "/")).foldl FileTree.descend place =
      (components front).foldl FileTree.descend place := by
  have hEnd := components_append_slash front ""
  rw [String.append_empty] at hEnd
  rw [hEnd, List.foldl_append]
  rfl

theorem FileTree.descend_of_isName {name : String} (h : IsName name) (place : Place) :
    FileTree.descend place name = place ++ [name] := by
  rw [FileTree.descend, if_neg (not_or.mpr ⟨h.ne_empty, h.ne_here⟩), if_neg h.ne_up]

theorem foldl_descend_join {name : String} (h : IsName name) (base : String) (place : Place) :
    (components (join base name)).foldl FileTree.descend place =
      (components base).foldl FileTree.descend place ++ [name] := by
  by_cases hBase : base = ""
  · subst hBase
    rw [join_empty h, components_of_no_slash h.no_slash]
    exact FileTree.descend_of_isName h place
  · obtain ⟨front, hJoin, hFront⟩ := join_eq h hBase
    -- A slash at the end of `base` adds an empty component, which leads nowhere.
    have hFold : (components base).foldl FileTree.descend place =
        (components front).foldl FileTree.descend place := by
      rcases hFront with rfl | rfl
      · rfl
      · exact foldl_descend_append_slash front place
    rw [hJoin, components_append_slash, components_of_no_slash h.no_slash, List.foldl_append,
      List.foldl_cons, List.foldl_nil, FileTree.descend_of_isName h, hFold]

theorem isAbsolute_append {path : String} (h : path ≠ "") (rest : String) :
    isAbsolute (path ++ rest) = isAbsolute path := by
  obtain ⟨c, cs, hPath⟩ := List.exists_cons_of_ne_nil (mt String.toList_eq_nil_iff.mp h)
  rw [isAbsolute, String.toList_append, isAbsolute, hPath, List.cons_append, List.head?_cons,
    List.head?_cons]

theorem isAbsolute_join {name : String} (h : IsName name) (base : String) :
    isAbsolute (join base name) = isAbsolute base := by
  by_cases hBase : base = ""
  · subst hBase
    rw [join_empty h]
    exact eq_false_of_ne_true h.not_isAbsolute
  · rw [join, if_neg h.not_isAbsolute]
    split
    · exact isAbsolute_append hBase name
    · rw [String.append_assoc, isAbsolute_append hBase]

namespace FileTree

theorem placeOf_join (t : FileTree) {name : String} (h : IsName name) (base : String) :
    t.placeOf (join base name) = t.placeOf base ++ [name] := by
  rw [placeOf, origin, isAbsolute_join h, foldl_descend_join h, placeOf, origin]

theorem placeOf_foldl_join (t : FileTree) {names : List String} (h : ∀ name ∈ names, IsName name)
    (base : String) : t.placeOf (names.foldl join base) = t.placeOf base ++ names := by
  induction names generalizing base with
  | nil => exact (List.append_nil _).symm
  | cons name names ih =>
    obtain ⟨hName, hNames⟩ := List.forall_mem_cons.mp h
    rw [List.foldl_cons, ih hNames, placeOf_join t hName, List.append_assoc, List.singleton_append]

end FileTree

/-! ## The end of a path -/

theorem not_endsWithSlash_join {name : String} (h : IsName name) (base : String) :
    ¬ endsWithSlash (join base name) := by
  have hAppend (front : String) : ¬ endsWithSlash (front ++ name) := by
    intro hSlash
    rw [endsWithSlash, beq_iff_eq, String.toList_append, List.getLast?_append,
      Option.or_eq_some_iff] at hSlash
    rcases hSlash with hSlash | ⟨hNone, _⟩
    · exact h.no_slash (List.mem_of_getLast? hSlash)
    · exact h.ne_empty (String.toList_eq_nil_iff.mp (List.getLast?_eq_none_iff.mp hNone))
  rw [join, if_neg h.not_isAbsolute]
  split
  · exact hAppend base
  · exact hAppend _

theorem withoutSlash_eq_self {path : String} (h : ¬ endsWithSlash path) :
    withoutSlash path = path := by
  have hHead : path.toList.reverse.head? ≠ some '/' := by
    rw [List.head?_reverse]
    exact fun hLast => h (beq_iff_eq.mpr hLast)
  have hDrop : path.toList.reverse.dropWhile (· == '/') = path.toList.reverse := by
    cases hText : path.toList.reverse with
    | nil => rfl
    | cons c cs =>
      rw [hText] at hHead
      exact List.dropWhile_cons_of_neg fun hc => hHead (congrArg some (beq_iff_eq.mp hc))
  rw [withoutSlash, hDrop, List.reverse_reverse, String.ofList_toList]

end CToGo.Files
