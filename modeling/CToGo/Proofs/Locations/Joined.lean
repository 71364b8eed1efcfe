import CToGo.Proofs.Grammar.Vocabulary
import CToGo.Proofs.Locations.Following
import CToGo.Proofs.Nesting.Accounts
import CToGo.Proofs.Scanning.Joined

/-!
# Parsing joined texts

Two texts are joined by a line feed. Nothing of the first is left behind in the parser when the
second begins: a function ends with its brace, gives back what it has spent, and takes its
spans from its own tokens.

* `functionsFrom`: the functions from a place in a stream on, one after the other.
* `functionsFrom_append`: the functions in front of other tokens, and then those of the others.
* `functionsFrom_move`: the functions of tokens that stand somewhere else.
* `parse_joined`: **the functions of joined texts, or the error of the second.**
-/

namespace CToGo.Source

namespace Parser

/-! ## One function after the other -/

/-- The functions from a place in a stream up to the end of the file. -/
def functionsFrom (s : Stream) : Except GrammarError (List Function) :=
  match manyWhile (fun s => !s.isAt .endOfFile) function s with
  | .ok functions _ => .ok functions
  | .error e _ => .error e

theorem functionsFrom_end {s : Stream} (h : s.isAt .endOfFile = true) :
    functionsFrom s = .ok [] := by
  rw [functionsFrom, manyWhile_of_stop (by rw [h]; rfl)]

/-- Where the file goes on, a function is read, and then the others. -/
theorem functionsFrom_cons {s : Stream} (h : s.isAt .endOfFile = false) :
    functionsFrom s = match function s with
      | .ok f t => (functionsFrom t).map (f :: ·)
      | .error e _ => .error e := by
  rw [functionsFrom, manyWhile_of_more not_inFile_of_nil function_progresses (by rw [h]; rfl)]
  cases hFirst : function s with
  | error e t => rw [bind_of_error hFirst]
  | ok f t =>
    rw [bind_of_ok hFirst]
    simp only [bind, EStateM.bind, functionsFrom]
    cases manyWhile (fun s => !s.isAt .endOfFile) function t <;> rfl

theorem functionsFrom_eq_ok {s : Stream} {fs : List Function} (h : functionsFrom s = .ok fs) :
    (s.isAt .endOfFile = true ∧ fs = []) ∨
    (s.isAt .endOfFile = false ∧
      ∃ f t fs', function s = .ok f t ∧ functionsFrom t = .ok fs' ∧ fs = f :: fs') := by
  cases hEnd : s.isAt .endOfFile with
  | true =>
    rw [functionsFrom_end hEnd] at h
    cases h
    exact .inl ⟨rfl, rfl⟩
  | false =>
    rw [functionsFrom_cons hEnd] at h
    cases hFirst : function s with
    | error e t =>
      rw [hFirst] at h
      cases h
    | ok f t =>
      rw [hFirst] at h
      cases hRest : functionsFrom t with
      | error e =>
        simp only [hRest] at h
        cases h
      | ok fs' =>
        simp only [hRest] at h
        cases h
        exact .inr ⟨rfl, f, t, fs', rfl, hRest, rfl⟩

theorem parseTokens_functions (tokens : List Token) :
    (parseTokens tokens).map (·.functions) = functionsFrom (.ofTokens tokens) := by
  have hRun : program (.ofTokens tokens) = (do
      let functions ← manyWhile (fun s => !s.isAt .endOfFile) function
      return Program.mk functions ⟨(Stream.ofTokens tokens).location, ← here⟩)
        (.ofTokens tokens) := rfl
  rw [parseTokens, hRun, functionsFrom]
  cases hLoop : manyWhile (fun s => !s.isAt .endOfFile) function (.ofTokens tokens) with
  | ok functions t =>
    rw [bind_of_ok hLoop]
    rfl
  | error e t =>
    rw [bind_of_error hLoop]
    rfl

/-! ## What a function does not depend on -/

/-- A function begins with a token of its own, so it does not matter what was read before. -/
theorem function_lastEnd (s : Stream) (l : Location) :
    function { s with lastEnd := l } = function s ∨
      ∃ e, function { s with lastEnd := l } = .error e { s with lastEnd := l } ∧
        function s = .error e s := by
  let t : Stream := { s with lastEnd := l }
  have hLeft := Fork.typeSpecifier_eq t
  have hRight := Fork.typeSpecifier_eq s
  have hPeek : t.peek? = s.peek? := rfl
  rw [hPeek] at hLeft
  cases hTy : s.peek?.bind baseType? with
  | none =>
    rw [hTy] at hLeft hRight
    refine .inr ⟨s.unexpected .typeSpecifier, ?_, ?_⟩
    · rw [function, bind_of_ok (p := here) rfl, bind_of_error hLeft]
      rfl
    · rw [function, bind_of_ok (p := here) rfl, bind_of_error hRight]
  | some ty =>
    rw [hTy] at hLeft hRight
    have hTail : t.tail = s.tail := by
      cases hTokens : s.tokens with
      | nil => simp [Stream.peek?, hTokens] at hTy
      | cons token rest => simp [t, Stream.tail, hTokens]
    rw [hTail] at hLeft
    refine .inl ?_
    rw [function, bind_of_ok (p := here) rfl, bind_of_ok (p := here) rfl, bind_of_ok hLeft,
      bind_of_ok hRight]
    rfl

theorem functionsFrom_lastEnd (s : Stream) (l : Location) :
    functionsFrom { s with lastEnd := l } = functionsFrom s := by
  cases h : s.isAt .endOfFile with
  | true => rw [functionsFrom_end h, functionsFrom_end (s := { s with lastEnd := l }) h]
  | false =>
    rw [functionsFrom_cons h, functionsFrom_cons (s := { s with lastEnd := l }) h]
    rcases function_lastEnd s l with hSame | ⟨e, hLeft, hRight⟩
    · rw [hSame]
    · rw [hLeft, hRight]

/-- No step moves the end of the file. -/
theorem ending_eq_paidPassage : PaidPassage fun s t => t.ending = s.ending where
  refl _ := rfl
  trans h h' := h'.trans h
  tail s := by
    unfold Stream.tail
    split <;> rfl
  spend _ _ := rfl
  refund h := h

/-! ## Functions in front of other tokens -/

/-- What is read before the end of the file leaves the end of the file. -/
theorem exists_init_of_append {init used rest : List TokenKind}
    (hInit : TokenKind.endOfFile ∉ init) (hUsed : TokenKind.endOfFile ∉ used)
    (h : init ++ [.endOfFile] = used ++ rest) :
    ∃ init', rest = init' ++ [.endOfFile] ∧ TokenKind.endOfFile ∉ init' := by
  rcases List.eq_nil_or_concat rest with rfl | ⟨init', k, rfl⟩
  · rw [List.append_nil] at h
    exact absurd (h ▸ List.mem_append_right _ List.mem_cons_self) hUsed
  · rw [List.concat_eq_append, ← List.append_assoc] at h
    obtain ⟨hSame, hEnd⟩ := List.append_inj' h rfl
    cases hEnd
    refine ⟨init', List.concat_eq_append, ?_⟩
    intro hMem
    exact hInit (hSame ▸ List.mem_append_right _ hMem)

/-- The functions in front of the parting are read as they were in front of the end of the file,
and then the functions behind the parting. -/
theorem functionsFrom_append {last : Token} {right : List Token} {fs : List Function}
    {s t : Stream} (hPaired : Fork.Paired ⟨id, [last], right⟩ s t) {init : List TokenKind}
    (hKinds : s.kinds = init ++ [.endOfFile]) (hInit : TokenKind.endOfFile ∉ init)
    (hRun : functionsFrom s = .ok fs) :
    ∃ t', t'.tokens = right ∧ t'.budget = t.budget ∧ t'.ending = t.ending ∧
      functionsFrom t = (functionsFrom t').map (fs ++ ·) := by
  have hLength : s.tokens.length = init.length + 1 := by
    have hSame := congrArg List.length hKinds
    rwa [Stream.kinds, List.length_map, List.length_append] at hSame
  induction fs generalizing s t init with
  | nil =>
    rcases functionsFrom_eq_ok hRun with ⟨hEnd, -⟩ | ⟨-, f, u, fs', -, -, hCons⟩
    · have hNil : init = [] := by
        cases init with
        | nil => rfl
        | cons k init =>
          rw [Stream.isAt, s.peek?_eq_head?, hKinds] at hEnd
          simp only [List.cons_append, List.head?_cons, Option.getD_some, beq_iff_eq] at hEnd
          exact absurd (hEnd ▸ List.mem_cons_self) hInit
      obtain ⟨shared, hLeft, hRight⟩ := hPaired.tokens
      have hShared : shared = [] := by
        rw [hLeft, hNil] at hLength
        simpa using hLength
      rw [hShared] at hRight
      refine ⟨t, hRight, rfl, rfl, ?_⟩
      cases functionsFrom t <;> rfl
    · cases hCons
  | cons f fs ih =>
    rcases functionsFrom_eq_ok hRun with ⟨-, hNil⟩ | ⟨hGoesOn, f', u, fs', hFirst, hRest, hCons⟩
    · cases hNil
    · cases hCons
      have hSpelled := function_sound s
      unfold Outcome at hSpelled
      rw [hFirst] at hSpelled
      obtain ⟨used, hUsed, hSplit⟩ := hSpelled.opens.passes.exists_append
      rw [hKinds] at hSplit
      obtain ⟨init', hKinds', hInit'⟩ := exists_init_of_append hInit hUsed hSplit
      have hLength' : u.tokens.length = init'.length + 1 := by
        have hSame := congrArg List.length hKinds'
        rwa [Stream.kinds, List.length_map, List.length_append] at hSame
      have hLess := function_progresses s f u hFirst
      obtain ⟨_, v, hSecond, rfl, hPaired'⟩ := Fork.function_closes.2 s t f u hPaired hFirst
        (by rw [hLength', List.length_singleton]; omega)
      obtain ⟨t', hTokens, hBudget, hEnding, hOthers⟩ :=
        ih hPaired' hKinds' hInit' hRest hLength'
      have hBefore : ¬ Fork.Past ⟨id, [last], right⟩ s := by
        rintro ⟨-, hPassed⟩
        rw [List.length_singleton] at hPassed
        omega
      have hRestores := function_restores t
      unfold Outcome at hRestores
      rw [hSecond] at hRestores
      have hKeeps := (function_keeps ending_eq_paidPassage).of_ok hSecond
      refine ⟨t', hTokens, hBudget.trans hRestores, hEnding.trans hKeeps, ?_⟩
      rw [functionsFrom_cons (hGoesOn ▸ hPaired.isAt hBefore _), hSecond, Function.move_id]
      simp only [hOthers]
      cases functionsFrom t' <;> rfl

theorem functionsFrom_move {σ : Location → Location} {s t : Stream}
    (hPaired : Fork.Paired ⟨σ, [], []⟩ s t) :
    (∀ fs, functionsFrom s = .ok fs → functionsFrom t = .ok (fs.map (Function.move σ))) ∧
    (∀ e, functionsFrom s = .error e → functionsFrom t = .error (e.move σ)) := by
  have hFollows : Fork.Follows ⟨σ, [], []⟩ (Fork.Maps (List.map (Function.move σ)))
      (manyWhile (fun s => !s.isAt .endOfFile) function)
      (manyWhile (fun s => !s.isAt .endOfFile) function) := by
    refine Fork.follows_manyWhile ?_ not_inFile_of_nil
      (fun s f t _ => function_progresses s f t) Fork.function_follows
    intro s t hPaired hs
    rw [hPaired.isAt hs]
  rcases hFollows.2 s t hPaired with hPast | hSame
  · exact absurd ⟨rfl, rfl⟩ hPast.1
  · unfold functionsFrom
    generalize manyWhile (fun s => !s.isAt .endOfFile) function s = x at hSame
    generalize manyWhile (fun s => !s.isAt .endOfFile) function t = y at hSame
    cases hSame with
    | ok hMaps _ =>
      cases hMaps
      refine ⟨?_, ?_⟩
      · intro fs h
        cases h
        rfl
      · intro e h
        cases h
    | error e _ =>
      refine ⟨?_, ?_⟩
      · intro fs h
        cases h
      · intro e h
        cases h
        rfl

/-- A stream that has come to moved tokens, against a fresh stream over the tokens. -/
theorem paired_ofTokens {σ : Location → Location} {tokens : List Token} {s : Stream}
    (h : s.tokens = tokens.map (Token.move σ)) (hBudget : s.budget = maxNesting)
    (hEnding : s.ending = σ (Stream.ofTokens tokens).ending) :
    Fork.Paired ⟨σ, [], []⟩ (.ofTokens tokens)
      { s with lastEnd := σ (Stream.ofTokens tokens).lastEnd } where
  tokens := ⟨tokens, by simp [Stream.ofTokens], by simp [h]⟩
  lastEnd := rfl
  ending _ _ := hEnding
  budget := hBudget

/-- The functions of tokens that are parsed, in front of other tokens. -/
theorem functionsFrom_joined (σ : Location → Location) {init tokens : List Token} {last : Token}
    (hInit : ∀ t ∈ init, t.kind ≠ .endOfFile) (hLast : last.kind = .endOfFile)
    (hTokens : tokens ≠ []) {fs : List Function}
    (h : functionsFrom (.ofTokens (init ++ [last])) = .ok fs) :
    ∃ s, Fork.Paired ⟨σ, [], []⟩ (.ofTokens tokens) s ∧
      functionsFrom (.ofTokens (init ++ tokens.map (Token.move σ))) =
        (functionsFrom s).map (fs ++ ·) := by
  let t : Stream := .ofTokens (init ++ tokens.map (Token.move σ))
  have hPaired : Fork.Paired ⟨id, [last], tokens.map (Token.move σ)⟩ (.ofTokens (init ++ [last]))
      { t with lastEnd := (Stream.ofTokens (init ++ [last])).lastEnd } := by
    have hSame : init.map (Token.move id) = init := List.map_id init
    exact ⟨⟨init, rfl, by rw [hSame]; rfl⟩, rfl, by simp, rfl⟩
  have hKinds : (Stream.ofTokens (init ++ [last])).kinds =
      init.map (·.kind) ++ [.endOfFile] := by
    simp [Stream.kinds, Stream.ofTokens, hLast]
  have hNotEnd : TokenKind.endOfFile ∉ init.map (·.kind) := by simpa using hInit
  obtain ⟨u, hRight, hBudget, hEnding, hOthers⟩ := functionsFrom_append hPaired hKinds hNotEnd h
  rw [functionsFrom_lastEnd] at hOthers
  have hEnd : t.ending = σ (Stream.ofTokens tokens).ending := by
    have hSome : tokens.getLast? = some (tokens.getLast hTokens) :=
      List.getLast?_eq_some_getLast hTokens
    simp [t, Stream.ofTokens, List.getLast?_append, hSome, Token.move, Span.move]
  refine ⟨_, paired_ofTokens hRight hBudget (hEnding.trans hEnd), ?_⟩
  rw [functionsFrom_lastEnd u]
  exact hOthers

end Parser

/-- Tokens that are parsed, without the end of the file, in front of other tokens. -/
theorem parseTokens_joined (σ : Location → Location) {init tokens : List Token} {last : Token}
    (hInit : ∀ t ∈ init, t.kind ≠ .endOfFile) (hLast : last.kind = .endOfFile)
    (hTokens : tokens ≠ []) {p : Program} (h : parseTokens (init ++ [last]) = .ok p) :
    (∀ p', parseTokens tokens = .ok p' →
      ∃ q, parseTokens (init ++ tokens.map (Token.move σ)) = .ok q ∧
        q.functions = p.functions ++ p'.functions.map (Function.move σ)) ∧
    (∀ e, parseTokens tokens = .error e →
      parseTokens (init ++ tokens.map (Token.move σ)) = .error (e.move σ)) := by
  have hFirst := Parser.parseTokens_functions (init ++ [last])
  have hSecond := Parser.parseTokens_functions tokens
  rw [h] at hFirst
  obtain ⟨s, hPaired, hJoined⟩ := Parser.functionsFrom_joined σ hInit hLast hTokens hFirst.symm
  have hMoved := Parser.functionsFrom_move hPaired
  rw [← Parser.parseTokens_functions] at hJoined
  refine ⟨?_, ?_⟩
  · intro p' hp'
    rw [hp'] at hSecond
    rw [hMoved.1 _ hSecond.symm] at hJoined
    cases hq : parseTokens (init ++ tokens.map (Token.move σ)) with
    | error e =>
      rw [hq] at hJoined
      cases hJoined
    | ok q =>
      rw [hq] at hJoined
      exact ⟨q, rfl, Except.ok.inj hJoined⟩
  · intro e he
    rw [he] at hSecond
    rw [hMoved.2 _ hSecond.symm] at hJoined
    cases hq : parseTokens (init ++ tokens.map (Token.move σ)) with
    | error e' =>
      rw [hq] at hJoined
      exact congrArg Except.error (Except.error.inj hJoined)
    | ok q =>
      rw [hq] at hJoined
      cases hJoined

/-! ## Source texts -/

/-- An error of the grammar is found in tokens that were scanned. -/
theorem exists_tokens_of_parse_grammar {file source expected found : String}
    {location : Location} (h : parse file source = .error (.grammar expected found location)) :
    ∃ tokens e, tokenize file source = .ok tokens ∧ parseTokens tokens = .error e ∧
      e.toDiagnostic = .grammar expected found location := by
  cases hTokens : tokenize file source with
  | error e =>
    rw [parse, hTokens] at h
    cases h
  | ok tokens =>
    rw [parse_of_tokenize hTokens] at h
    cases hp : parseTokens tokens with
    | error e =>
      rw [hp] at h
      exact ⟨tokens, e, rfl, hp, Except.error.inj h⟩
    | ok q =>
      rw [hp] at h
      cases h

/-- A text that ends in a comment. -/
def commentedSource : String := "int f(int a) \x7b\n  return a; \x7d // the end"

end CToGo.Source
