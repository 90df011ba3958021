import SheetGrammar.Proofs.LexedTexts

/-!
The reader reports the earliest token that is wrong. A state of the reader stands for the tokens that have led to it:
whole derivations of what is complete, and the beginnings of the forms that are open (`State.Read`, with `FramesRead`
for the forms, outermost first).

- `State.Read.step`, `State.Read.run`: what a token adds to them, and so what a run has read.
- `State.Read.fills`: they can be completed to a derivation, with tokens that can be written behind any text.
- `Derivation.reads`, `State.run_derives`: the leaves of a derivation are read to their end unless a name is taken, so
  where the reader stops at a token, no derivation goes on with it.
- `Grammar.parse_error_earliest`: what each error says about the tokens of the text.
-/

namespace SheetGrammar

namespace Canonical

/-! ## What has been read -/

inductive Frame.Read : Frame → List Token → Prop
  | part {how : Combination} (opening : Terminal .openParen) (head : Keyword (.combine how))
      (earlier : Derivation .grammars) :
      Read (.part how earlier.value.reverse) (opening.token :: head.token :: earlier.tokens)
  | rename (opening : Terminal .openParen) (head : Keyword .rename) (source target : Atom) :
      Read (.body (.rename source.text target.text)) [opening.token, head.token, source.token, target.token]
  | single (opening : Terminal .openParen) (head : Keyword .single) (tape : Atom) :
      Read (.body (.single tape.text)) [opening.token, head.token, tape.token]
  | entry {scoping : Scoping} (opening : Terminal .openParen) (head : Keyword (.table scoping))
      (earlier : Derivation .definitions) (inner : Terminal .openParen) (name : Atom) :
      Read (.entry scoping earlier.value name.token name.text)
        (opening.token :: head.token :: (earlier.tokens ++ [inner.token, name.token]))

inductive FramesRead : List Frame → List Token → Prop
  | nil : FramesRead [] []
  | cons {frame : Frame} {frames : List Frame} {outer inner : List Token} :
      FramesRead frames outer → frame.Read inner → FramesRead (frame :: frames) (outer ++ inner)

inductive Awaited.Read : Awaited → List Token → Prop
  | grammar : Read .grammar []
  | symbol (dollar : Terminal .dollar) : Read .symbol [dollar.token]
  | colon (tape : Atom) : Read (.colon tape.text) [tape.token]
  | text (tape : Atom) (colon : Terminal .colon) : Read (.text tape.text) [tape.token, colon.token]
  | head (opening : Terminal .openParen) : Read .head [opening.token]
  | source (opening : Terminal .openParen) (head : Keyword .rename) : Read .source [opening.token, head.token]
  | target (opening : Terminal .openParen) (head : Keyword .rename) (source : Atom) :
      Read (.target source.text) [opening.token, head.token, source.token]
  | single (opening : Terminal .openParen) (head : Keyword .single) : Read .single [opening.token, head.token]
  | part {how : Combination} (opening : Terminal .openParen) (head : Keyword (.combine how))
      (earlier : Derivation .grammars) :
      Read (.part how earlier.value.reverse) (opening.token :: head.token :: earlier.tokens)
  | close (opening : Terminal .openParen) (form : Derivation .form) :
      Read (.close form.value) (opening.token :: form.tokens)
  | entry {scoping : Scoping} (opening : Terminal .openParen) (head : Keyword (.table scoping))
      (earlier : Derivation .definitions) :
        Read (.entry scoping earlier.value) (opening.token :: head.token :: earlier.tokens)
  | name {scoping : Scoping} (opening : Terminal .openParen) (head : Keyword (.table scoping))
      (earlier : Derivation .definitions) (inner : Terminal .openParen) :
      Read (.name scoping earlier.value) (opening.token :: head.token :: (earlier.tokens ++ [inner.token]))
  | closeEntry {scoping : Scoping} (opening : Terminal .openParen) (head : Keyword (.table scoping))
      (earlier : Derivation .definitions) (inner : Terminal .openParen) (name : Atom) (body : Derivation .grammar) :
      Read (.closeEntry scoping earlier.value name.token name.text body.value)
        (opening.token :: head.token :: (earlier.tokens ++ inner.token :: name.token :: body.tokens))
  | finish (d : Derivation .grammar) : Read (.finish d.value) d.tokens

inductive State.Read : State → List Token → Prop
  | mk {awaited : Awaited} {frames : List Frame} {outer inner : List Token} :
      FramesRead frames outer → awaited.Read inner → Read ⟨awaited, frames⟩ (outer ++ inner)

/-! ## Derivations of lists, made longer at the end -/

namespace Derivation

theorem exists_concat_grammars : (earlier : Derivation .grammars) → (d : Derivation .grammar) →
    ∃ longer : Derivation .grammars, longer.tokens = earlier.tokens ++ d.tokens ∧
      longer.value = earlier.value ++ [d.value]
  | .noGrammars, d => ⟨.grammars d .noGrammars, by simp [tokens], rfl⟩
  | .grammars first rest, d => by
    obtain ⟨longer, htokens, hvalue⟩ := exists_concat_grammars rest d
    exact ⟨.grammars first longer, by simp [tokens, htokens], by simp [value, hvalue]⟩

theorem exists_concat_definitions : (earlier : Derivation .definitions) → (d : Derivation .definition) →
    ∃ longer : Derivation .definitions, longer.tokens = earlier.tokens ++ d.tokens ∧
      longer.value = earlier.value ++ [d.value]
  | .noDefinitions, d => ⟨.definitions d .noDefinitions, by simp [tokens], rfl⟩
  | .definitions first rest, d => by
    obtain ⟨longer, htokens, hvalue⟩ := exists_concat_definitions rest d
    exact ⟨.definitions first longer, by simp [tokens, htokens], by simp [value, hvalue]⟩

end Derivation

namespace State

variable {frames : List Frame} {outer ts : List Token} {token : Token} {next state : State}

/-! ## What a step has read -/

theorem exists_atom_of_withAtom {step : String → State} (h : withAtom token step = .ok next) :
    ∃ atom : Atom, atom.token = token ∧ next = step atom.text := by
  unfold withAtom at h
  split at h
  · next text htext =>
    obtain ⟨atom, hatom, rfl⟩ := Atom.exists_of_atom? htext
    cases h
    exact ⟨atom, hatom, rfl⟩
  · cases h

theorem exists_leaf_of_withKind {kind : Kind} {result : Except ParseError State}
    (h : withKind kind token result = .ok next) : ∃ leaf : Terminal kind, leaf.token = token ∧ result = .ok next := by
  unfold withKind at h
  split at h
  · next hkind => exact ⟨⟨token, hkind⟩, rfl, h⟩
  · cases h

theorem exists_keyword_of_beginForm (h : beginForm frames token = .ok next) :
    ∃ (head : Head) (word : Keyword head), word.token = token ∧ next = ⟨head.awaited, frames⟩ := by
  obtain ⟨head, hkind, hlexeme⟩ := exists_head_of_beginForm h
  rw [beginForm_head hkind hlexeme] at h
  cases h
  exact ⟨head, ⟨token, hkind, hlexeme⟩, rfl, rfl⟩

theorem read_deliver (h : FramesRead frames outer) (d : Derivation .grammar) :
    (deliver d.value frames).Read (outer ++ d.tokens) := by
  cases h with
  | nil => exact .mk .nil (.finish d)
  | @cons frame frames outer inner hframes hframe =>
    rw [List.append_assoc]
    cases hframe with
    | part opening head earlier =>
      obtain ⟨longer, htokens, hvalue⟩ := earlier.exists_concat_grammars d
      have hparts : d.value :: earlier.value.reverse = longer.value.reverse := by rw [hvalue, List.reverse_concat]
      rw [List.cons_append, List.cons_append, ← htokens, deliver, hparts]
      exact .mk hframes (.part opening head longer)
    | rename opening head first second => exact .mk hframes (.close opening (.rename head first second d))
    | single opening head atom => exact .mk hframes (.close opening (.single head atom d))
    | entry opening head earlier inner name =>
      rw [List.cons_append, List.cons_append, List.append_assoc]
      exact .mk hframes (.closeEntry opening head earlier inner name d)

theorem read_beginGrammar (h : FramesRead frames outer) (hstep : beginGrammar frames token = .ok next) :
    next.Read (outer ++ [token]) := by
  unfold beginGrammar at hstep
  split at hstep
  · next hkind =>
    cases hstep
    exact read_deliver h (.epsilon ⟨token, hkind⟩)
  · next hkind =>
    cases hstep
    exact read_deliver h (.null ⟨token, hkind⟩)
  · next hkind =>
    cases hstep
    exact .mk h (.symbol ⟨token, hkind⟩)
  · next hkind =>
    cases hstep
    exact .mk h (.head ⟨token, hkind⟩)
  · split at hstep
    · next tape htape =>
      cases hstep
      obtain ⟨atom, rfl, rfl⟩ := Atom.exists_of_atom? htape
      exact .mk h (.colon atom)
    · cases hstep

theorem read_grammar (h : FramesRead frames outer) : Read ⟨.grammar, frames⟩ outer := by
  rw [← List.append_nil outer]
  exact .mk h .grammar

/-- A token that is taken is the last of those that have led to the next state. -/
theorem Read.step (h : state.Read ts) (hstep : state.step token = .ok next) : next.Read (ts ++ [token]) := by
  obtain ⟨hframes, hawaited⟩ := h
  rw [List.append_assoc]
  cases hawaited with
  | grammar => exact read_beginGrammar hframes hstep
  | symbol dollar =>
    obtain ⟨atom, rfl, rfl⟩ := exists_atom_of_withAtom hstep
    exact read_deliver hframes (.embed dollar atom)
  | colon tape =>
    obtain ⟨leaf, rfl, hnext⟩ := exists_leaf_of_withKind hstep
    cases hnext
    exact .mk hframes (.text tape leaf)
  | text tape colon =>
    obtain ⟨atom, rfl, rfl⟩ := exists_atom_of_withAtom hstep
    exact read_deliver hframes (.literal tape colon atom)
  | head opening =>
    obtain ⟨head, word, rfl, rfl⟩ := exists_keyword_of_beginForm hstep
    cases head with
    | combine how => exact .mk hframes (.part opening word .noGrammars)
    | rename => exact .mk hframes (.source opening word)
    | single => exact .mk hframes (.single opening word)
    | table scoping => exact .mk hframes (.entry opening word .noDefinitions)
  | source opening head =>
    obtain ⟨atom, rfl, rfl⟩ := exists_atom_of_withAtom hstep
    exact .mk hframes (.target opening head atom)
  | target opening head source =>
    obtain ⟨atom, rfl, rfl⟩ := exists_atom_of_withAtom hstep
    exact read_grammar (.cons hframes (.rename opening head source atom))
  | single opening head =>
    obtain ⟨atom, rfl, rfl⟩ := exists_atom_of_withAtom hstep
    exact read_grammar (.cons hframes (.single opening head atom))
  | part opening head earlier =>
    simp only [State.step] at hstep
    split at hstep
    · next hkind =>
      cases hstep
      rw [List.reverse_reverse]
      exact read_deliver hframes (.parens opening (.combine _ head earlier) ⟨token, hkind⟩)
    · -- the token begins one more part, so the form is open around it
      rw [← List.append_assoc]
      exact read_beginGrammar (.cons hframes (.part opening head earlier)) hstep
  | close opening form =>
    obtain ⟨closing, rfl, hnext⟩ := exists_leaf_of_withKind hstep
    cases hnext
    exact read_deliver hframes (.parens opening form closing)
  | entry opening head earlier =>
    simp only [State.step] at hstep
    split at hstep
    · next hkind =>
      cases hstep
      exact read_deliver hframes (.parens opening (.table _ head earlier) ⟨token, hkind⟩)
    · obtain ⟨inner, rfl, hnext⟩ := exists_leaf_of_withKind hstep
      cases hnext
      exact .mk hframes (.name opening head earlier inner)
  | name opening head earlier inner =>
    obtain ⟨atom, rfl, rfl⟩ := exists_atom_of_withAtom hstep
    rw [List.cons_append, List.cons_append, List.append_assoc]
    exact read_grammar (.cons hframes (.entry opening head earlier inner atom))
  | closeEntry opening head earlier inner name body =>
    obtain ⟨closing, rfl, hnext⟩ := exists_leaf_of_withKind hstep
    split at hnext
    · cases hnext
    · cases hnext
      obtain ⟨longer, htokens, hvalue⟩ := earlier.exists_concat_definitions (.definition inner name body closing)
      have hread := State.Read.mk hframes (.entry opening head longer)
      rw [htokens, hvalue] at hread
      simpa [Derivation.tokens, Derivation.value] using hread
  | finish d => cases hstep

theorem Read.run (h : state.Read ts) {rest : List Token} (hrun : state.run rest = .ok next) :
    next.Read (ts ++ rest) := by
  induction rest generalizing state ts with
  | nil =>
    cases hrun
    rwa [List.append_nil]
  | cons token rest ih =>
    unfold State.run at hrun
    split at hrun
    · next middle hmiddle =>
      rw [← List.singleton_append, ← List.append_assoc]
      exact ih (h.step hmiddle) hrun
    · cases hrun

theorem read_start : start.Read [] := read_grammar .nil

/-! ## Errors -/

theorem run_append {before rest : List Token} (h : state.run before = .ok next) :
    state.run (before ++ rest) = next.run rest := by
  induction before generalizing state with
  | nil =>
    cases h
    rfl
  | cons token before ih =>
    unfold run at h
    split at h
    · next middle hmiddle =>
      rw [List.cons_append, run, hmiddle]
      exact ih h
    · cases h

/-- A run that fails does so at one token, and reads all before it. -/
theorem exists_of_run_error {e : ParseError} (h : state.run ts = .error e) :
    ∃ before token after last, ts = before ++ token :: after ∧ state.run before = .ok last ∧
      last.step token = .error e := by
  induction ts generalizing state with
  | nil => cases h
  | cons token rest ih =>
    unfold run at h
    split at h
    · next middle hmiddle =>
      obtain ⟨before, failing, after, last, rfl, hbefore, hstep⟩ := ih h
      exact ⟨token :: before, failing, after, last, rfl, by rw [run, hmiddle]; exact hbefore, hstep⟩
    · next e' hstep =>
      cases h
      exact ⟨[], token, rest, state, rfl, rfl, hstep⟩

end State

/-- The error is that a token is not one that may come next. -/
def ParseError.Rejects (token : Token) : ParseError → Prop
  | unexpected _ found => found = token
  | unknownForm head => head = token
  | _ => False

namespace State

variable {frames : List Frame} {token : Token} {state : State} {e : ParseError}

theorem rejects_withAtom {step : String → State} (h : withAtom token step = .error e) : e.Rejects token := by
  unfold withAtom at h
  split at h
  · cases h
  · cases h
    rfl

theorem rejects_or_of_withKind {kind : Kind} {result : Except ParseError State}
    (h : withKind kind token result = .error e) : e.Rejects token ∨ token.kind = kind ∧ result = .error e := by
  unfold withKind at h
  split at h
  · next hkind => exact .inr ⟨hkind, h⟩
  · cases h
    exact .inl rfl

theorem rejects_beginGrammar (h : beginGrammar frames token = .error e) : e.Rejects token := by
  unfold beginGrammar at h
  split at h
  · cases h
  · cases h
  · cases h
  · cases h
  · split at h
    · cases h
    · cases h
      rfl

theorem rejects_beginForm (h : beginForm frames token = .error e) : e.Rejects token := by
  unfold beginForm at h
  split at h
  · split at h <;> cases h
    rfl
  · cases h
    rfl

/-- A step fails at its token, or at the end of a definition whose name is taken. -/
theorem rejects_or_duplicate (h : state.step token = .error e) :
    e.Rejects token ∨ ∃ scoping entries nameToken name g, state.awaited = .closeEntry scoping entries nameToken name g ∧
      token.kind = .closeParen ∧ entries.contains name = true ∧ e = .duplicateSymbol name scoping nameToken := by
  obtain ⟨awaited, frames⟩ := state
  have closed {kind : Kind} {after : State} (h : withKind kind token (.ok after) = .error e) : e.Rejects token :=
    (rejects_or_of_withKind h).resolve_right fun hok => nomatch hok.2
  cases awaited with
  | grammar => exact .inl (rejects_beginGrammar h)
  | symbol => exact .inl (rejects_withAtom h)
  | colon tape => exact .inl (closed h)
  | text tape => exact .inl (rejects_withAtom h)
  | head => exact .inl (rejects_beginForm h)
  | source => exact .inl (rejects_withAtom h)
  | target source => exact .inl (rejects_withAtom h)
  | single => exact .inl (rejects_withAtom h)
  | part how parts =>
    simp only [step] at h
    split at h
    · cases h
    · exact .inl (rejects_beginGrammar h)
  | close g => exact .inl (closed h)
  | entry scoping entries =>
    simp only [step] at h
    split at h
    · cases h
    · exact .inl (closed h)
  | name scoping entries => exact .inl (rejects_withAtom h)
  | closeEntry scoping entries nameToken name g =>
    rcases rejects_or_of_withKind h with hrejects | ⟨hkind, hresult⟩
    · exact .inl hrejects
    · split at hresult
      · next htaken =>
        cases hresult
        exact .inr ⟨scoping, entries, nameToken, name, g, rfl, hkind, htaken, rfl⟩
      · cases hresult
  | finish g =>
    cases h
    exact .inl rfl

/-- A text that ends too early is told so. -/
theorem exists_of_finish_error (h : state.finish = .error e) : ∃ expected, e = .unexpectedEnd expected := by
  unfold finish at h
  split at h <;> cases h <;> exact ⟨_, rfl⟩

end State

/-! ## Derivations are read -/

/-- A run goes on as another does, or it meets a definition whose name is taken. -/
def GoesOnAs (run other : Except ParseError State) : Prop :=
  run = other ∨ ∃ name scoping token, run = .error (.duplicateSymbol name scoping token)

theorem GoesOnAs.trans {first second third : Except ParseError State} (h : GoesOnAs first second)
    (h' : GoesOnAs second third) : GoesOnAs first third := by
  rcases h with rfl | h
  · exact h'
  · exact .inr h

namespace State

variable {frames : List Frame} {rest : List Token}

@[simp] theorem withAtom_atom (atom : Atom) (next : String → State) :
    withAtom atom.token next = .ok (next atom.text) := by
  rw [withAtom, atom.atom?_token]

@[simp] theorem withKind_leaf {kind : Kind} (leaf : Terminal kind) (next : Except ParseError State) :
    withKind kind leaf.token next = next := by
  rw [withKind, if_pos leaf.kind_eq]

@[simp] theorem beginForm_keyword {head : Head} (word : Keyword head) :
    beginForm frames word.token = .ok ⟨head.awaited, frames⟩ :=
  beginForm_head word.kind_eq word.lexeme_eq

@[simp] theorem beginGrammar_atom (frames : List Frame) (atom : Atom) :
    beginGrammar frames atom.token = .ok ⟨.colon atom.text, frames⟩ := by
  rcases atom.kind_token with h | h <;> simp [beginGrammar, h, atom.atom?_token]

/-- Between the parts of a combination a grammar is read as anywhere. -/
theorem run_part (d : Derivation .grammar) (how : Combination) (parts : List Grammar) :
    run ⟨.part how parts, frames⟩ (d.tokens ++ rest) =
      run ⟨.grammar, .part how parts :: frames⟩ (d.tokens ++ rest) := by
  obtain ⟨token, more, htokens⟩ : ∃ token more, d.tokens ++ rest = token :: more := by cases d <;> exact ⟨_, _, rfl⟩
  have hkind : token.kind ≠ .closeParen := fun hkind => d.grammar_ne_closing ⟨token, hkind⟩ htokens
  rw [htokens, run, run]
  simp [step, hkind]

end State

namespace Derivation

open State

def Reads : {p : Phrase} → Derivation p → Prop
  | .grammar, d =>
    ∀ frames rest, GoesOnAs (run ⟨.grammar, frames⟩ (d.tokens ++ rest)) ((deliver d.value frames).run rest)
  | .form, d => ∀ frames rest (closing : Terminal .closeParen),
    GoesOnAs (run ⟨.head, frames⟩ (d.tokens ++ closing.token :: rest)) ((deliver d.value frames).run rest)
  | .grammars, d => ∀ frames rest how parts,
    GoesOnAs (run ⟨.part how parts, frames⟩ (d.tokens ++ rest))
      (run ⟨.part how (d.value.reverse ++ parts), frames⟩ rest)
  | .definition, d => ∀ frames rest scoping entries,
    GoesOnAs (run ⟨.entry scoping entries, frames⟩ (d.tokens ++ rest))
      (run ⟨.entry scoping (entries ++ [d.value]), frames⟩ rest)
  | .definitions, d => ∀ frames rest scoping entries,
    GoesOnAs (run ⟨.entry scoping entries, frames⟩ (d.tokens ++ rest))
      (run ⟨.entry scoping (entries ++ d.value), frames⟩ rest)

theorem reads {p : Phrase} (d : Derivation p) : d.Reads := by
  -- only the end of a definition can part a run from the derivation
  induction d with
  | epsilon leaf =>
    intro frames rest
    exact .inl (by simp [tokens, run, step, beginGrammar, leaf.kind_eq, value])
  | null leaf =>
    intro frames rest
    exact .inl (by simp [tokens, run, step, beginGrammar, leaf.kind_eq, value])
  | literal tape colon text =>
    intro frames rest
    exact .inl (by simp [tokens, run, step, value])
  | embed dollar symbol =>
    intro frames rest
    exact .inl (by simp [tokens, run, step, beginGrammar, dollar.kind_eq, value])
  | parens opening form closing ih =>
    intro frames rest
    have := ih frames rest closing
    simpa [tokens, run, step, beginGrammar, opening.kind_eq, value] using this
  | combine how head parts ih =>
    intro frames rest closing
    have := ih frames (closing.token :: rest) how []
    simpa [tokens, run, step, Head.awaited, closing.kind_eq, value] using this
  | rename head source target body ih =>
    intro frames rest closing
    have := ih (.body (.rename source.text target.text) :: frames) (closing.token :: rest)
    simpa [tokens, run, step, Head.awaited, deliver, value] using this
  | single head tape body ih =>
    intro frames rest closing
    have := ih (.body (.single tape.text) :: frames) (closing.token :: rest)
    simpa [tokens, run, step, Head.awaited, deliver, value] using this
  | table scoping head entries ih =>
    intro frames rest closing
    have := ih frames (closing.token :: rest) scoping []
    simpa [tokens, run, step, Head.awaited, closing.kind_eq, value] using this
  | noGrammars =>
    intro frames rest how parts
    exact .inl rfl
  | grammars first more ihFirst ihMore =>
    intro frames rest how parts
    rw [tokens, List.append_assoc, run_part]
    refine (ihFirst (.part how parts :: frames) (more.tokens ++ rest)).trans ?_
    have := ihMore frames rest how (first.value :: parts)
    simpa [value, deliver] using this
  | definition opening name body closing ih =>
    intro frames rest scoping entries
    have hbody := ih (.entry scoping entries name.token name.text :: frames) (closing.token :: rest)
    have hclose :
      GoesOnAs (run ⟨.closeEntry scoping entries name.token name.text body.value, frames⟩ (closing.token :: rest))
        (run ⟨.entry scoping (entries ++ [(name.text, body.value)]), frames⟩ rest) := by
      by_cases htaken : entries.contains name.text = true
      · exact .inr ⟨name.text, scoping, name.token, by simp [run, step, htaken]⟩
      · exact .inl (by simp [run, step, htaken])
    have := hbody.trans hclose
    simpa [tokens, run, step, opening.kind_eq, value] using this
  | noDefinitions =>
    intro frames rest scoping entries
    exact .inl (by simp [tokens, value])
  | definitions first more ihFirst ihMore =>
    intro frames rest scoping entries
    rw [tokens, List.append_assoc]
    refine (ihFirst frames (more.tokens ++ rest) scoping entries).trans ?_
    have := ihMore frames rest scoping (entries ++ [first.value])
    simpa [value] using this

end Derivation

/-! ## Where there is no way on -/

/-- The tokens are the leaves of a derivation, whose names need not be distinct. -/
def Derives (ts : List Token) : Prop := ∃ d : Derivation .grammar, d.tokens = ts

namespace State

variable {before ts : List Token} {token : Token} {last : State} {e : ParseError}

/-- A derivation is read to its end, unless a name is taken. -/
theorem run_derives (h : Derives ts) : ∃ g, GoesOnAs (start.run ts) (.ok ⟨.finish g, []⟩) := by
  obtain ⟨d, rfl⟩ := h
  have hreads := d.reads [] []
  rw [List.append_nil] at hreads
  exact ⟨d.value, hreads⟩

theorem not_derives_of_rejects (hrun : start.run before = .ok last) (hstep : last.step token = .error e)
    (hrejects : e.Rejects token) (rest : List Token) : ¬ Derives (before ++ token :: rest) := by
  intro hderives
  obtain ⟨g, hg⟩ := run_derives hderives
  rw [run_append hrun, run, hstep] at hg
  rcases hg with hok | ⟨name, scoping, nameToken, hduplicate⟩
  · cases hok
  · cases hduplicate
    exact hrejects

theorem not_derives_of_finish (hrun : start.run ts = .ok last) (hfinish : last.finish = .error e) : ¬ Derives ts := by
  intro hderives
  obtain ⟨g, hg⟩ := run_derives hderives
  rw [hrun] at hg
  rcases hg with hok | ⟨name, scoping, nameToken, hduplicate⟩
  · cases hok
    cases hfinish
  · cases hduplicate

end State

/-! ## Where there is a way on -/

def Token.spelling (token : Token) : Kind × String := (token.kind, token.lexeme)

/-- There are spellings that can be written in a text, and whatever tokens have them are as `P` says. -/
def Fills (P : List Token → Prop) : Prop :=
  ∃ fill : List (Kind × String), (∀ spelling ∈ fill, Lexeme spelling.1 spelling.2.toList) ∧
    ∀ rest : List Token, rest.map Token.spelling = fill → P rest

namespace Fills

variable {P Q : List Token → Prop}

theorem nil (h : P []) : Fills P := by
  refine ⟨[], List.forall_mem_nil _, ?_⟩
  intro rest hrest
  rwa [List.map_eq_nil_iff.mp hrest]

theorem leaf (kind : Kind) (lexeme : String) (hlexeme : Lexeme kind lexeme.toList)
    (h : Fills fun rest => ∀ leaf : Terminal kind, leaf.token.lexeme = lexeme → P (leaf.token :: rest)) : Fills P := by
  obtain ⟨fill, hfill, hrest⟩ := h
  refine ⟨(kind, lexeme) :: fill, List.forall_mem_cons.mpr ⟨hlexeme, hfill⟩, ?_⟩
  intro ts hts
  obtain ⟨token, rest, rfl, htoken, hmap⟩ := List.map_eq_cons_iff.mp hts
  exact hrest rest hmap ⟨token, congrArg Prod.fst htoken⟩ (congrArg Prod.snd htoken)

theorem imp (h : Fills P) (himp : ∀ rest, P rest → Q rest) : Fills Q := by
  obtain ⟨fill, hfill, hrest⟩ := h
  exact ⟨fill, hfill, fun rest hmap => himp rest (hrest rest hmap)⟩

theorem append (h : Fills P) (h' : Fills Q) :
    Fills fun rest => ∃ first second, rest = first ++ second ∧ P first ∧ Q second := by
  obtain ⟨fill, hfill, hfirst⟩ := h
  obtain ⟨fill', hfill', hsecond⟩ := h'
  refine ⟨fill ++ fill', List.forall_mem_append.mpr ⟨hfill, hfill'⟩, ?_⟩
  intro rest hmap
  obtain ⟨first, second, rfl, hmap, hmap'⟩ := List.map_eq_append_iff.mp hmap
  exact ⟨first, second, rfl, hfirst first hmap, hsecond second hmap'⟩

theorem name (h : Fills fun rest => ∀ atom : Atom, P (atom.token :: rest)) : Fills P :=
  leaf .word "a" (.word (by decide)) (h.imp fun _ hatom leaf _ => hatom (.word leaf))

theorem grammar (h : Fills fun rest => ∀ d : Derivation .grammar, P (d.tokens ++ rest)) : Fills P :=
  leaf .epsilon "ε" (.mark rfl) (h.imp fun _ hd leaf _ => hd (.epsilon leaf))

theorem close (h : Fills fun rest => ∀ closing : Terminal .closeParen, P (closing.token :: rest)) : Fills P :=
  leaf .closeParen ")" (.mark rfl) (h.imp fun _ hclosing leaf _ => hclosing leaf)

end Fills

/-- An open form that has its grammar can be closed. -/
theorem Frame.Read.fills {frame : Frame} {inner : List Token} (h : frame.Read inner) :
    Fills fun rest => ∀ d : Derivation .grammar, Derives (inner ++ d.tokens ++ rest) := by
  cases h with
  | part opening head earlier =>
    refine .close (.nil ?_)
    intro closing d
    obtain ⟨longer, htokens, -⟩ := earlier.exists_concat_grammars d
    exact ⟨.parens opening (.combine _ head longer) closing, by simp [Derivation.tokens, htokens]⟩
  | rename opening head source target =>
    refine .close (.nil ?_)
    intro closing d
    exact ⟨.parens opening (.rename head source target d) closing, by simp [Derivation.tokens]⟩
  | single opening head tape =>
    refine .close (.nil ?_)
    intro closing d
    exact ⟨.parens opening (.single head tape d) closing, by simp [Derivation.tokens]⟩
  | entry opening head earlier inner name =>
    refine .close (.close (.nil ?_))
    intro closing closing' d
    obtain ⟨longer, htokens, -⟩ := earlier.exists_concat_definitions (.definition inner name d closing')
    exact ⟨.parens opening (.table _ head longer) closing, by simp [Derivation.tokens, htokens]⟩

theorem FramesRead.fills {frames : List Frame} {outer : List Token} (h : FramesRead frames outer) :
    Fills fun rest => ∀ d : Derivation .grammar, Derives (outer ++ d.tokens ++ rest) := by
  induction h with
  | nil =>
    refine .nil ?_
    intro d
    exact ⟨d, by simp⟩
  | cons _ hframe ih =>
    refine (hframe.fills.append ih).imp ?_
    rintro _ ⟨first, second, rfl, hfirst, hsecond⟩ d
    obtain ⟨form, hform⟩ := hfirst d
    have hwhole := hsecond form
    rw [hform] at hwhole
    simpa using hwhole

/-- What a form is made of before its grammar can be put in, whatever comes next. -/
theorem Awaited.Read.fills {awaited : Awaited} {inner : List Token} (h : awaited.Read inner) :
    Fills fun rest => Derives (inner ++ rest) := by
  cases h with
  | grammar => exact .grammar (.nil fun d => ⟨d, by simp⟩)
  | symbol dollar => exact .name (.nil fun symbol => ⟨.embed dollar symbol, rfl⟩)
  | colon tape => exact .leaf .colon ":" (.mark rfl) (.name (.nil fun text colon _ => ⟨.literal tape colon text, rfl⟩))
  | text tape colon => exact .name (.nil fun text => ⟨.literal tape colon text, rfl⟩)
  | head opening =>
    refine .leaf .word "seq" (.word (by decide)) (.close (.nil ?_))
    intro closing word hword
    exact ⟨.parens opening (.combine .sequence ⟨word.token, word.kind_eq, hword⟩ .noGrammars) closing, rfl⟩
  | source opening head =>
    refine .name (.name (.grammar (.close (.nil ?_))))
    intro closing body target source
    exact ⟨.parens opening (.rename head source target body) closing, by simp [Derivation.tokens]⟩
  | target opening head source =>
    refine .name (.grammar (.close (.nil ?_)))
    intro closing body target
    exact ⟨.parens opening (.rename head source target body) closing, by simp [Derivation.tokens]⟩
  | single opening head =>
    refine .name (.grammar (.close (.nil ?_)))
    intro closing body tape
    exact ⟨.parens opening (.single head tape body) closing, by simp [Derivation.tokens]⟩
  | part opening head earlier =>
    refine .close (.nil ?_)
    intro closing
    exact ⟨.parens opening (.combine _ head earlier) closing, by simp [Derivation.tokens]⟩
  | close opening form =>
    refine .close (.nil ?_)
    intro closing
    exact ⟨.parens opening form closing, by simp [Derivation.tokens]⟩
  | entry opening head earlier =>
    refine .close (.nil ?_)
    intro closing
    exact ⟨.parens opening (.table _ head earlier) closing, by simp [Derivation.tokens]⟩
  | name opening head earlier inner =>
    refine .name (.grammar (.close (.close (.nil ?_))))
    intro closing closing' body name
    obtain ⟨longer, htokens, -⟩ := earlier.exists_concat_definitions (.definition inner name body closing')
    exact ⟨.parens opening (.table _ head longer) closing, by simp [Derivation.tokens, htokens]⟩
  | closeEntry opening head earlier inner name body =>
    refine .close (.close (.nil ?_))
    intro closing closing'
    obtain ⟨longer, htokens, -⟩ := earlier.exists_concat_definitions (.definition inner name body closing')
    exact ⟨.parens opening (.table _ head longer) closing, by simp [Derivation.tokens, htokens]⟩
  | finish d => exact .nil ⟨d, by simp⟩

/-- Whatever has been read, a derivation begins with it. -/
theorem State.Read.fills {state : State} {ts : List Token} (h : state.Read ts) :
    Fills fun rest => Derives (ts ++ rest) := by
  obtain ⟨hframes, hawaited⟩ := h
  refine (hawaited.fills.append hframes.fills).imp ?_
  rintro _ ⟨first, second, rfl, ⟨d, hd⟩, hsecond⟩
  have hwhole := hsecond d
  rw [hd] at hwhole
  simpa using hwhole

theorem delimited_spellings (fill : List (Kind × String)) :
    Delimited (fill.flatMap fun spelling => ' ' :: spelling.2.toList) := by
  cases fill with
  | nil => trivial
  | cons spelling fill => exact delimited_space _

/-- Spellings that can be written are written with a space before each. -/
theorem exists_lexed_spellings {fill : List (Kind × String)}
    (h : ∀ spelling ∈ fill, Lexeme spelling.1 spelling.2.toList) (offset : Nat) :
    ∃ rest : List Token, rest.map Token.spelling = fill ∧
      Lexed offset (fill.flatMap fun spelling => ' ' :: spelling.2.toList) rest := by
  induction fill generalizing offset with
  | nil => exact ⟨[], rfl, .done⟩
  | cons spelling fill ih =>
    obtain ⟨hlexeme, hfill⟩ := List.forall_mem_cons.mp h
    obtain ⟨rest, hmap, hlexed⟩ := ih hfill (offset + ' '.utf8Size + String.utf8Len spelling.2.toList)
    have htoken := Lexed.token hlexeme (fun _ => delimited_spellings fill) hlexed
    refine ⟨_, ?_, .separator rfl htoken⟩
    simp [Token.spelling, hmap]

/-- The first tokens of a text are the first tokens of a text that goes on in a way that can be filled in. -/
theorem exists_text_of_fills {text : String} {ts us : List Token} {P : List Token → Prop}
    (h : tokens text = .ok (ts ++ us)) (hfill : Fills P) : ∃ text' rest, tokens text' = .ok (ts ++ rest) ∧ P rest := by
  -- cut the text behind the last token of `ts`; a space there ends a word as well as anything
  obtain ⟨before, after, -, hbefore⟩ := (tokens_eq_ok_iff.mp h).exists_beginning
  obtain ⟨fill, hwritable, hrest⟩ := hfill
  obtain ⟨rest, hmap, hlexed⟩ := exists_lexed_spellings hwritable (0 + String.utf8Len before)
  have hwhole := hbefore.append (delimited_spellings fill) hlexed
  refine ⟨String.ofList (before ++ fill.flatMap fun spelling => ' ' :: spelling.2.toList), rest, ?_, hrest rest hmap⟩
  rw [tokens_eq_ok_iff, String.toList_ofList]
  exact hwhole

/-! ## Errors point at the earliest wrong token -/

/-- The tokens are the first of a text that has a derivation. -/
def Viable (ts : List Token) : Prop := ∃ text rest, tokens text = .ok (ts ++ rest) ∧ Derives (ts ++ rest)

def ParseError.Earliest (ts : List Token) : ParseError → Prop
  | unreadable _ => False
  | unexpected _ token | unknownForm token =>
    ∃ before after, ts = before ++ token :: after ∧ Viable before ∧ ∀ rest, ¬ Derives (before ++ token :: rest)
  | unexpectedEnd _ => (∃ text rest, rest ≠ [] ∧ tokens text = .ok (ts ++ rest) ∧ Derives (ts ++ rest)) ∧ ¬ Derives ts
  | duplicateSymbol name scoping token =>
    ∃ (before after : List Token) (opening inner : Terminal .openParen) (head : Keyword (.table scoping))
      (earlier : Derivation .definitions) (atom : Atom) (body : Derivation .grammar) (closing : Terminal .closeParen),
      let read := before ++ opening.token :: head.token ::
        (earlier.tokens ++ (Derivation.definition inner atom body closing).tokens)
      ts = read ++ after ∧ atom.token = token ∧ atom.text = name ∧ Symbol.key name ∈ SymbolTable.keys earlier.value ∧
        Viable read

theorem State.Read.viable {state : State} {text : String} {ts us : List Token} (h : state.Read ts)
    (htext : tokens text = .ok (ts ++ us)) : Viable ts :=
  exists_text_of_fills htext h.fills

/-- A name that is taken is reported once its definition is complete, where the table could still go on. -/
theorem earliest_duplicate {text : String} {frames : List Frame} {outer inner after : List Token} {scoping : Scoping}
    {entries : SymbolTable Grammar} {nameToken : Token} {name : String} {g : Grammar}
    (hframes : FramesRead frames outer) (hread : (Awaited.closeEntry scoping entries nameToken name g).Read inner)
    (closing : Terminal .closeParen)
    (htaken : entries.contains name = true) (htext : tokens text = .ok (outer ++ inner ++ closing.token :: after)) :
    (ParseError.duplicateSymbol name scoping nameToken).Earliest (outer ++ inner ++ closing.token :: after) := by
  cases hread with
  | closeEntry opening head earlier opening' atom body =>
    -- as derivations go, the definition is complete, and the table waits for the next
    obtain ⟨longer, hlonger, -⟩ := earlier.exists_concat_definitions (.definition opening' atom body closing)
    have hsplit :
      outer ++ opening.token :: head.token :: (earlier.tokens ++ opening'.token :: atom.token :: body.tokens) ++
        closing.token :: after = outer ++ opening.token :: head.token :: longer.tokens ++ after := by
      simp [hlonger, Derivation.tokens]
    rw [hsplit] at htext ⊢
    have hviable := (State.Read.mk hframes (.entry opening head longer)).viable htext
    rw [hlonger] at hviable ⊢
    exact ⟨outer, after, opening, opening', head, earlier, atom, body, closing, rfl, rfl, rfl,
      List.mem_map.mpr (SymbolTable.contains_iff.mp htaken), hviable⟩

theorem earliest_of_step {text : String} {before after : List Token} {token : Token} {last : State} {e : ParseError}
    (htext : tokens text = .ok (before ++ token :: after)) (hrun : State.start.run before = .ok last)
    (hstep : last.step token = .error e) : e.Earliest (before ++ token :: after) := by
  have hread : last.Read before := State.read_start.run hrun
  rcases State.rejects_or_duplicate hstep with hrejects
    | ⟨scoping, entries, nameToken, name, g, hawaited, hkind, htaken, rfl⟩
  · have hviable := hread.viable htext
    have hnone := State.not_derives_of_rejects hrun hstep hrejects
    cases e with
    | unexpected expected found =>
      cases hrejects
      exact ⟨before, after, rfl, hviable, hnone⟩
    | unknownForm head =>
      cases hrejects
      exact ⟨before, after, rfl, hviable, hnone⟩
    | _ => cases hrejects
  · obtain ⟨hframes, hread⟩ := hread
    cases hawaited
    exact earliest_duplicate hframes hread ⟨token, hkind⟩ htaken htext

theorem earliest_of_finish {text : String} {ts : List Token} {last : State} {e : ParseError}
    (htext : tokens text = .ok ts) (hrun : State.start.run ts = .ok last) (hfinish : last.finish = .error e) :
    e.Earliest ts := by
  have hnone := State.not_derives_of_finish hrun hfinish
  obtain ⟨expected, rfl⟩ := State.exists_of_finish_error hfinish
  refine ⟨?_, hnone⟩
  rw [← List.append_nil ts] at htext
  obtain ⟨text', rest, htext', hderives⟩ := exists_text_of_fills htext (State.read_start.run hrun).fills
  refine ⟨text', rest, ?_, htext', hderives⟩
  rintro rfl
  exact hnone (by simpa using hderives)

/-- Reading fails at a token, or where the text ends. -/
theorem step_or_finish_of_parse_error {text : String} {ts : List Token} {e : ParseError} (htext : tokens text = .ok ts)
    (h : Grammar.parse text = .error e) :
    (∃ before token after last, ts = before ++ token :: after ∧ State.start.run before = .ok last ∧
      last.step token = .error e) ∨
      ∃ last, State.start.run ts = .ok last ∧ last.finish = .error e := by
  simp only [Grammar.parse, htext, parseTokens] at h
  split at h
  · next last hrun => exact .inr ⟨last, hrun, h⟩
  · next e' hrun =>
    cases h
    exact .inl (State.exists_of_run_error hrun)

end Canonical

namespace Grammar

open Canonical

/-- A text that has tokens but no derivation with distinct names is refused at the first token that is wrong. What
stands before that token begins a text with a derivation, and what ends with it does not; a text that ends too early
begins one too; and a name that is taken is that of a complete definition, after one of the same key in the same
form. -/
theorem parse_error_earliest {text : String} {ts : List Token} (lexed : tokens text = .ok ts) {e : ParseError}
    (failed : parse text = .error e) : e.Earliest ts := by
  rcases step_or_finish_of_parse_error lexed failed with
    ⟨before, token, after, last, rfl, hrun, hstep⟩ | ⟨last, hrun, hfinish⟩
  · exact earliest_of_step lexed hrun hstep
  · exact earliest_of_finish lexed hrun hfinish

/-- A second definition of one key, with something after it that would be wrong too. -/
theorem parse_error_earliest_duplicate :
    let text := "(coll (a ε) (A ∅) :"
    let ts : List Token :=
      [⟨.openParen, "(", 0⟩, ⟨.word, "coll", 1⟩, ⟨.openParen, "(", 6⟩, ⟨.word, "a", 7⟩, ⟨.epsilon, "ε", 9⟩,
      ⟨.closeParen, ")", 11⟩, ⟨.openParen, "(", 13⟩, ⟨.word, "A", 14⟩, ⟨.null, "∅", 16⟩, ⟨.closeParen, ")", 19⟩,
        ⟨.colon, ":", 21⟩]
    let e : ParseError := .duplicateSymbol "A" .nested ⟨.word, "A", 14⟩
    tokens text = .ok ts ∧ parse text = .error e ∧ e.Earliest ts := by
  intro text ts e
  have lexed : tokens text = .ok ts := by decide +kernel
  have failed : parse text = .error e := by
    rw [parse, lexed]
    rfl
  exact ⟨lexed, failed, parse_error_earliest lexed failed⟩

end Grammar

end SheetGrammar
