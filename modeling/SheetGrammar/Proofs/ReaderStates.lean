import SheetGrammar.Proofs.Derivations

/-!
What the reader takes. To each of its states belong the lists of tokens that complete the text from there on, and the
grammar that this gives. `State.Completes` says which these are, by derivations of the phrases that the state waits for
and of those that the open forms around it wait for. It is put together from what each thing that can be awaited asks
of the tokens, `next` being what is asked of those behind it: `AtomThen`, `LeafThen`, `HeadThen`, `PhraseThen`, and
`PartsThen`, `EntriesThen`, `EntryThen`, `BodyThen` for the rest of a form.

- `State.takes_step`: a token is taken exactly if it begins such a list, and it leads to the state that the rest of the
  list completes.
- `State.finish_eq_ok_iff`: the reader is done exactly where nothing more is needed.
- `run_finish_iff`: so it reads a list to its end, and gives what the list derives, exactly if the list completes its
  state.
- `parseTokens_eq_ok_iff`: from the start, these are the lists that have a derivation with distinct names.
-/

namespace SheetGrammar

/-- Definitions that can follow the entries of a table one after the other, each under a name that is not taken. -/
def SymbolTable.Follow {α : Type} (entries : SymbolTable α) : List (String × α) → Prop
  | [] => True
  | entry :: rest => entries.contains entry.1 = false ∧ Follow (entries ++ [entry]) rest

theorem SymbolTable.follow_iff {α : Type} {entries : SymbolTable α} (h : entries.WellFormed)
    {more : List (String × α)} : entries.Follow more ↔ SymbolTable.WellFormed (entries ++ more) := by
  induction more generalizing entries with
  | nil => simpa [Follow] using h
  | cons entry rest ih =>
    have split : entries ++ entry :: rest = (entries ++ [entry]) ++ rest := by simp
    rw [Follow, split]
    constructor
    · rintro ⟨fresh, hrest⟩
      exact (ih (wellFormed_concat.mpr ⟨h, fresh⟩)).mp hrest
    · intro hw
      have hfirst : SymbolTable.WellFormed (entries ++ [entry]) :=
        hw.sublist ((List.sublist_append_left _ rest).map _)
      exact ⟨(wellFormed_concat.mp hfirst).2, (ih hfirst).mpr hw⟩

namespace Canonical

/-! ## Lists of tokens by what they begin with -/

def AtomThen (next : String → List Token → Prop) (ts : List Token) : Prop :=
  ∃ (atom : Atom) (rest : List Token), ts = atom.token :: rest ∧ next atom.text rest

def LeafThen (kind : Kind) (next : List Token → Prop) (ts : List Token) : Prop :=
  ∃ (leaf : Terminal kind) (rest : List Token), ts = leaf.token :: rest ∧ next rest

def HeadThen (head : Head) (next : List Token → Prop) (ts : List Token) : Prop :=
  ∃ (word : Keyword head) (rest : List Token), ts = word.token :: rest ∧ next rest

def PhraseThen (p : Phrase) (next : p.Value → List Token → Prop) (ts : List Token) : Prop :=
  ∃ (d : Derivation p) (rest : List Token), ts = d.tokens ++ rest ∧ d.Distinct ∧ next d.value rest

theorem atomThen_cons {next : String → List Token → Prop} {token : Token} {ts : List Token} :
    AtomThen next (token :: ts) ↔ ∃ text, token.atom? = some text ∧ next text ts := by
  constructor
  · rintro ⟨atom, rest, h, hnext⟩
    cases h
    exact ⟨atom.text, atom.atom?_token, hnext⟩
  · rintro ⟨text, h, hnext⟩
    obtain ⟨atom, rfl, rfl⟩ := Atom.exists_of_atom? h
    exact ⟨atom, ts, rfl, hnext⟩

theorem leafThen_cons {kind : Kind} {next : List Token → Prop} {token : Token} {ts : List Token} :
    LeafThen kind next (token :: ts) ↔ token.kind = kind ∧ next ts := by
  constructor
  · rintro ⟨leaf, rest, h, hnext⟩
    cases h
    exact ⟨leaf.kind_eq, hnext⟩
  · rintro ⟨hkind, hnext⟩
    exact ⟨⟨token, hkind⟩, ts, rfl, hnext⟩

theorem headThen_cons {head : Head} {next : List Token → Prop} {token : Token} {ts : List Token} :
    HeadThen head next (token :: ts) ↔ (token.kind = .word ∧ token.lexeme = head.word) ∧ next ts := by
  constructor
  · rintro ⟨word, rest, h, hnext⟩
    cases h
    exact ⟨⟨word.kind_eq, word.lexeme_eq⟩, hnext⟩
  · rintro ⟨⟨hkind, hlexeme⟩, hnext⟩
    exact ⟨⟨token, hkind, hlexeme⟩, ts, rfl, hnext⟩

@[simp] theorem atomThen_nil {next : String → List Token → Prop} : ¬ AtomThen next [] := by
  rintro ⟨_, _, h, _⟩
  cases h

@[simp] theorem leafThen_nil {kind : Kind} {next : List Token → Prop} : ¬ LeafThen kind next [] := by
  rintro ⟨_, _, h, _⟩
  cases h

@[simp] theorem headThen_nil {head : Head} {next : List Token → Prop} : ¬ HeadThen head next [] := by
  rintro ⟨_, _, h, _⟩
  cases h

/-! ## The rules -/

theorem phraseThen_grammar {next : Grammar → List Token → Prop} {ts : List Token} :
    PhraseThen .grammar next ts ↔
      LeafThen .epsilon (next (.epsilon {})) ts ∨ LeafThen .null (next (.null {})) ts ∨
      AtomThen (fun tape => LeafThen .colon (AtomThen fun text => next (.literal {} tape text))) ts ∨
      LeafThen .dollar (AtomThen fun symbol => next (.embed {} symbol)) ts ∨
      LeafThen .openParen (PhraseThen .form fun g => LeafThen .closeParen (next g)) ts := by
  constructor
  · rintro ⟨d, rest, rfl, hd, hnext⟩
    cases d with
    | epsilon leaf => exact .inl ⟨leaf, rest, rfl, hnext⟩
    | null leaf => exact .inr (.inl ⟨leaf, rest, rfl, hnext⟩)
    | literal tape colon text => exact .inr (.inr (.inl ⟨tape, _, rfl, colon, _, rfl, text, rest, rfl, hnext⟩))
    | embed dollar symbol => exact .inr (.inr (.inr (.inl ⟨dollar, _, rfl, symbol, rest, rfl, hnext⟩)))
    | parens opening form closing =>
      exact .inr (.inr (.inr (.inr ⟨opening, _, rfl, form, _, by simp, hd, closing, rest, rfl, hnext⟩)))
  · rintro (⟨leaf, rest, rfl, h⟩ | ⟨leaf, rest, rfl, h⟩ | ⟨tape, _, rfl, colon, _, rfl, text, rest, rfl, h⟩ |
      ⟨dollar, _, rfl, symbol, rest, rfl, h⟩ | ⟨opening, _, rfl, form, _, rfl, hd, closing, rest, rfl, h⟩)
    · exact ⟨.epsilon leaf, rest, rfl, trivial, h⟩
    · exact ⟨.null leaf, rest, rfl, trivial, h⟩
    · exact ⟨.literal tape colon text, rest, rfl, trivial, h⟩
    · exact ⟨.embed dollar symbol, rest, rfl, trivial, h⟩
    · exact ⟨.parens opening form closing, rest, by simp [Derivation.tokens], hd, h⟩

theorem phraseThen_grammars {next : List Grammar → List Token → Prop} {ts : List Token} :
    PhraseThen .grammars next ts ↔
      next [] ts ∨ PhraseThen .grammar (fun g => PhraseThen .grammars fun more => next (g :: more)) ts := by
  constructor
  · rintro ⟨d, rest, rfl, hd, hnext⟩
    cases d with
    | noGrammars => exact .inl hnext
    | grammars first more =>
      exact .inr ⟨first, _, List.append_assoc .., hd.1, more, rest, rfl, hd.2, hnext⟩
  · rintro (h | ⟨first, _, rfl, hfirst, more, rest, rfl, hmore, h⟩)
    · exact ⟨.noGrammars, ts, rfl, trivial, h⟩
    · exact ⟨.grammars first more, rest, (List.append_assoc ..).symm, ⟨hfirst, hmore⟩, h⟩

theorem phraseThen_definition {next : String × Grammar → List Token → Prop} {ts : List Token} :
    PhraseThen .definition next ts ↔ LeafThen .openParen
      (AtomThen fun name => PhraseThen .grammar fun g => LeafThen .closeParen (next (name, g))) ts := by
  constructor
  · rintro ⟨d, rest, rfl, hd, hnext⟩
    cases d with
    | definition opening name body closing =>
      exact ⟨opening, _, rfl, name, _, rfl, body, _, by simp, hd, closing, rest, rfl, hnext⟩
  · rintro ⟨opening, _, rfl, name, _, rfl, body, _, rfl, hd, closing, rest, rfl, h⟩
    exact ⟨.definition opening name body closing, rest, by simp [Derivation.tokens], hd, h⟩

theorem phraseThen_definitions {next : List (String × Grammar) → List Token → Prop} {ts : List Token} :
    PhraseThen .definitions next ts ↔
      next [] ts ∨ PhraseThen .definition (fun d => PhraseThen .definitions fun more => next (d :: more)) ts := by
  constructor
  · rintro ⟨d, rest, rfl, hd, hnext⟩
    cases d with
    | noDefinitions => exact .inl hnext
    | definitions first more =>
      exact .inr ⟨first, _, List.append_assoc .., hd.1, more, rest, rfl, hd.2, hnext⟩
  · rintro (h | ⟨first, _, rfl, hfirst, more, rest, rfl, hmore, h⟩)
    · exact ⟨.noDefinitions, ts, rfl, trivial, h⟩
    · exact ⟨.definitions first more, rest, (List.append_assoc ..).symm, ⟨hfirst, hmore⟩, h⟩

theorem phraseThen_and_left {p : Phrase} {a : Prop} {next : p.Value → List Token → Prop} :
    PhraseThen p (fun value rest => a ∧ next value rest) = fun ts => a ∧ PhraseThen p next ts := by
  funext ts
  apply propext
  constructor
  · rintro ⟨d, rest, hts, hd, ha, hnext⟩
    exact ⟨ha, d, rest, hts, hd, hnext⟩
  · rintro ⟨ha, d, rest, hts, hd, hnext⟩
    exact ⟨d, rest, hts, hd, ha, hnext⟩

/-! ## What a state waits for -/

def PartsThen (closes : Grammar → List Token → Prop) (how : Combination) (parts : List Grammar) : List Token → Prop :=
  PhraseThen .grammars fun more => LeafThen .closeParen (closes (.combine {} how (parts.reverse ++ more)))

def EntriesThen (closes : Grammar → List Token → Prop) (scoping : Scoping) (entries : SymbolTable Grammar) :
    List Token → Prop :=
  PhraseThen .definitions fun more rest =>
    entries.Follow more ∧ LeafThen .closeParen (closes (.table {} scoping (entries ++ more))) rest

def EntryThen (closes : Grammar → List Token → Prop) (scoping : Scoping) (entries : SymbolTable Grammar) (name : String)
    (g : Grammar) : List Token → Prop :=
  LeafThen .closeParen fun rest =>
    entries.contains name = false ∧ EntriesThen closes scoping (entries ++ [(name, g)]) rest

def BodyThen (closes : Grammar → List Token → Prop) (how : Relabelling) : List Token → Prop :=
  PhraseThen .grammar fun body => LeafThen .closeParen (closes (.relabel {} how body))

theorem partsThen_iff {closes : Grammar → List Token → Prop} {how : Combination} {parts : List Grammar}
    {ts : List Token} : PartsThen closes how parts ts ↔
      LeafThen .closeParen (closes (.combine {} how parts.reverse)) ts ∨
      PhraseThen .grammar (fun g => PartsThen closes how (g :: parts)) ts := by
  unfold PartsThen
  rw [phraseThen_grammars]
  simp

theorem entriesThen_iff {closes : Grammar → List Token → Prop} {scoping : Scoping} {entries : SymbolTable Grammar}
    {ts : List Token} :
    EntriesThen closes scoping entries ts ↔
      LeafThen .closeParen (closes (.table {} scoping entries)) ts ∨
      LeafThen .openParen (AtomThen fun name => PhraseThen .grammar (EntryThen closes scoping entries name)) ts := by
  unfold EntryThen EntriesThen
  rw [phraseThen_definitions, phraseThen_definition]
  simp [SymbolTable.Follow, and_assoc, phraseThen_and_left]

/-- The tokens that give a state what it waits for and then complete the forms around it as `closes` says. -/
def AwaitedThen (whole : Grammar) (closes : Grammar → List Token → Prop) : Awaited → List Token → Prop
  | .grammar => PhraseThen .grammar closes
  | .symbol => AtomThen fun symbol => closes (.embed {} symbol)
  | .colon tape => LeafThen .colon (AtomThen fun text => closes (.literal {} tape text))
  | .text tape => AtomThen fun text => closes (.literal {} tape text)
  | .head => PhraseThen .form fun g => LeafThen .closeParen (closes g)
  | .source => AtomThen fun source => AtomThen fun target => BodyThen closes (.rename source target)
  | .target source => AtomThen fun target => BodyThen closes (.rename source target)
  | .single => AtomThen fun tape => BodyThen closes (.single tape)
  | .part how parts => PartsThen closes how parts
  | .close g => LeafThen .closeParen (closes g)
  | .entry scoping entries => EntriesThen closes scoping entries
  | .name scoping entries => AtomThen fun name => PhraseThen .grammar (EntryThen closes scoping entries name)
  | .closeEntry scoping entries _ name g => EntryThen closes scoping entries name g
  | .finish g => fun ts => g = whole ∧ ts = []

def Frame.accept (g : Grammar) : Frame → Awaited
  | part how parts => .part how (g :: parts)
  | body how => .close (.relabel {} how g)
  | entry scoping entries token name => .closeEntry scoping entries token name g

/-- The tokens that complete the open forms, innermost first, once the innermost has its grammar. -/
def Closes (whole : Grammar) : List Frame → Grammar → List Token → Prop
  | [], g => fun ts => g = whole ∧ ts = []
  | frame :: frames, g => AwaitedThen whole (Closes whole frames) (frame.accept g)

/-- The tokens that complete the text from a state on, so that it is the text of `whole`. -/
def State.Completes (state : State) (whole : Grammar) : List Token → Prop :=
  AwaitedThen whole (Closes whole state.frames) state.awaited

def Head.awaited : Head → Awaited
  | combine how => .part how []
  | rename => .source
  | single => .single
  | table scoping => .entry scoping []

theorem headThen_iff {whole : Grammar} {closes : Grammar → List Token → Prop} {ts : List Token} :
    AwaitedThen whole closes .head ts ↔ ∃ head : Head, HeadThen head (AwaitedThen whole closes head.awaited) ts := by
  have distinct (entries : SymbolTable Grammar) : SymbolTable.Follow [] entries ↔ entries.WellFormed :=
    @SymbolTable.follow_iff _ [] List.nodup_nil _
  constructor
  · rintro ⟨d, rest, rfl, hd, hnext⟩
    cases d with
    | combine how word parts => exact ⟨.combine how, word, _, rfl, parts, rest, rfl, hd, hnext⟩
    | rename word source target body =>
      exact ⟨.rename, word, _, rfl, source, _, rfl, target, _, rfl, body, rest, rfl, hd, hnext⟩
    | single word tape body => exact ⟨.single, word, _, rfl, tape, _, rfl, body, rest, rfl, hd, hnext⟩
    | table scoping word entries =>
      exact ⟨.table scoping, word, _, rfl, entries, rest, rfl, hd.2, (distinct _).mpr hd.1, hnext⟩
  · rintro ⟨head, word, after, rfl, h⟩
    cases head with
    | combine how =>
      obtain ⟨parts, rest, rfl, hd, hnext⟩ := h
      exact ⟨.combine how word parts, rest, rfl, hd, hnext⟩
    | rename =>
      obtain ⟨source, _, rfl, target, _, rfl, body, rest, rfl, hd, hnext⟩ := h
      exact ⟨.rename word source target body, rest, rfl, hd, hnext⟩
    | single =>
      obtain ⟨tape, _, rfl, body, rest, rfl, hd, hnext⟩ := h
      exact ⟨.single word tape body, rest, rfl, hd, hnext⟩
    | table scoping =>
      obtain ⟨entries, rest, rfl, hd, hfollow, hnext⟩ := h
      exact ⟨.table scoping word entries, rest, rfl, ⟨(distinct _).mp hfollow, hd⟩, hnext⟩

/-! ## One step -/

namespace State

variable {whole : Grammar} {frames : List Frame} {token : Token} {ts : List Token}

theorem completes_mk {awaited : Awaited} :
    Completes ⟨awaited, frames⟩ whole = AwaitedThen whole (Closes whole frames) awaited := rfl

theorem completes_deliver {g : Grammar} : (deliver g frames).Completes whole = Closes whole frames g := by
  rcases frames with _ | ⟨frame, frames⟩
  · rfl
  · cases frame <;> rfl

def Takes (whole : Grammar) (ts : List Token) (result : Except ParseError State) : Prop :=
  ∃ next, result = .ok next ∧ next.Completes whole ts

@[simp] theorem takes_ok {next : State} : Takes whole ts (.ok next) ↔ next.Completes whole ts := by
  simp [Takes]

@[simp] theorem takes_error {e : ParseError} : ¬ Takes whole ts (.error e) := by
  simp [Takes]

theorem takes_withAtom {next : String → State} :
    Takes whole ts (withAtom token next) ↔ AtomThen (fun atom => (next atom).Completes whole) (token :: ts) := by
  rw [atomThen_cons, withAtom]
  cases token.atom? <;> simp

theorem takes_withKind {kind : Kind} {result : Except ParseError State} :
    Takes whole ts (withKind kind token result) ↔ LeafThen kind (fun ts => Takes whole ts result) (token :: ts) := by
  rw [leafThen_cons, withKind]
  by_cases h : token.kind = kind <;> simp [h]

theorem takes_beginGrammar :
    Takes whole ts (beginGrammar frames token) ↔ PhraseThen .grammar (Closes whole frames) (token :: ts) := by
  rw [phraseThen_grammar]
  simp only [leafThen_cons, atomThen_cons, beginGrammar]
  cases hk : token.kind <;> simp [Token.atom?, hk, completes_deliver, completes_mk, AwaitedThen]

theorem beginForm_head {head : Head} (hkind : token.kind = .word) (hlexeme : token.lexeme = head.word) :
    beginForm frames token = .ok ⟨head.awaited, frames⟩ := by
  rcases head with (_ | _) | _ | _ | (_ | _) <;>
    simp [beginForm, hkind, hlexeme, Head.word, combinationWord, scopingWord, Head.awaited]

theorem exists_head_of_beginForm {next : State} (h : beginForm frames token = .ok next) :
    ∃ head : Head, token.kind = .word ∧ token.lexeme = head.word := by
  unfold beginForm at h
  split at h
  · next hkind =>
    split at h
    · next hlexeme => exact ⟨.combine .sequence, hkind, hlexeme⟩
    · next hlexeme => exact ⟨.combine .alternation, hkind, hlexeme⟩
    · next hlexeme => exact ⟨.rename, hkind, hlexeme⟩
    · next hlexeme => exact ⟨.single, hkind, hlexeme⟩
    · next hlexeme => exact ⟨.table .nested, hkind, hlexeme⟩
    · next hlexeme => exact ⟨.table .flat, hkind, hlexeme⟩
    · cases h
  · cases h

theorem takes_beginForm :
    Takes whole ts (beginForm frames token) ↔ AwaitedThen whole (Closes whole frames) .head (token :: ts) := by
  simp only [headThen_iff, headThen_cons]
  constructor
  · rintro ⟨next, hnext, h⟩
    obtain ⟨head, hkind, hlexeme⟩ := exists_head_of_beginForm hnext
    rw [beginForm_head hkind hlexeme] at hnext
    cases hnext
    exact ⟨head, ⟨hkind, hlexeme⟩, h⟩
  · rintro ⟨head, ⟨hkind, hlexeme⟩, h⟩
    exact ⟨_, beginForm_head hkind hlexeme, h⟩

/-- A token is taken exactly if it begins a list that completes the state, and the rest completes the state it leads
to. -/
theorem takes_step (state : State) : Takes whole ts (state.step token) ↔ state.Completes whole (token :: ts) := by
  obtain ⟨awaited, frames⟩ := state
  cases awaited with
  | grammar => exact takes_beginGrammar
  | symbol => simp only [step, takes_withAtom, completes_deliver, completes_mk, AwaitedThen]
  | colon tape => simp only [step, takes_withKind, takes_ok, completes_mk, AwaitedThen]
  | text tape => simp only [step, takes_withAtom, completes_deliver, completes_mk, AwaitedThen]
  | head => exact takes_beginForm
  | source => exact takes_withAtom
  | target source => exact takes_withAtom
  | single => exact takes_withAtom
  | part how parts =>
    simp only [step, completes_mk, AwaitedThen, partsThen_iff, leafThen_cons]
    split
    · next hkind =>
      simp [hkind, completes_deliver, phraseThen_grammar, leafThen_cons, atomThen_cons, Token.atom?]
    · next hkind =>
      rw [takes_beginGrammar]
      simp only [hkind, false_and, false_or]
      rfl
  | close g => simp only [step, takes_withKind, takes_ok, completes_deliver, completes_mk, AwaitedThen]
  | entry scoping entries =>
    simp only [step, completes_mk, AwaitedThen, entriesThen_iff]
    split
    · next hkind => simp [leafThen_cons, hkind, completes_deliver]
    · next hkind => simp [leafThen_cons, hkind, takes_withKind, completes_mk, AwaitedThen]
  | name scoping entries => exact takes_withAtom
  | closeEntry scoping entries nameToken name g =>
    simp only [step, completes_mk, AwaitedThen, takes_withKind, EntryThen, leafThen_cons]
    split
    · next h => simp [h]
    · next h => simp [h, completes_mk, AwaitedThen]
  | finish g => simp [step, completes_mk, AwaitedThen]

/-- The text may end exactly where nothing more is needed. -/
theorem finish_eq_ok_iff (state : State) : state.finish = .ok whole ↔ state.Completes whole [] := by
  obtain ⟨awaited, frames⟩ := state
  cases awaited with
  | head => simp [finish, completes_mk, headThen_iff]
  | _ => simp [finish, completes_mk, AwaitedThen, phraseThen_grammar, BodyThen, EntryThen, partsThen_iff,
    entriesThen_iff]

/-! ## Whole texts -/

theorem run_finish_iff (state : State) :
    (∃ last, state.run ts = .ok last ∧ last.finish = .ok whole) ↔ state.Completes whole ts := by
  induction ts generalizing state with
  | nil => simp [run, finish_eq_ok_iff]
  | cons token rest ih =>
    rw [← takes_step, run]
    cases state.step token with
    | ok next => simpa using ih next
    | error e => simp

end State

/-- The lists of tokens that are read are those with a derivation whose names are told apart. -/
theorem parseTokens_eq_ok_iff {ts : List Token} {g : Grammar} :
    parseTokens ts = .ok g ↔ ∃ d : Derivation .grammar, d.tokens = ts ∧ d.value = g ∧ d.Distinct := by
  have hrun : parseTokens ts = .ok g ↔ State.start.Completes g ts := by
    rw [← State.run_finish_iff, parseTokens]
    cases State.start.run ts <;> simp
  rw [hrun]
  constructor
  · rintro ⟨d, rest, rfl, hd, hvalue, rfl⟩
    exact ⟨d, (List.append_nil _).symm, hvalue, hd⟩
  · rintro ⟨d, rfl, hvalue, hd⟩
    exact ⟨d, [], (List.append_nil _).symm, hd, hvalue, rfl⟩

theorem Derivation.tokens_injective : Function.Injective fun d : Derivation .grammar => d.tokens := by
  intro d d' h
  exact (d.append_tokens_inj (congrArg (· ++ []) h) trivial trivial).1

end Canonical

open Canonical

/-- A text is read as a grammar exactly if its tokens have a derivation that stands for the grammar and tells names
apart, and no list of tokens has two derivations. -/
theorem parse_eq_ok_iff_derivation (text : String) (g : Grammar) :
    (Grammar.parse text = .ok g ↔
      ∃ ts, tokens text = .ok ts ∧ ∃ d : Derivation .grammar, d.tokens = ts ∧ d.value = g ∧ d.Distinct) ∧
    Function.Injective fun d : Derivation .grammar => d.tokens := by
  refine ⟨?_, Derivation.tokens_injective⟩
  rw [Grammar.parse]
  cases tokens text with
  | ok ts =>
    refine parseTokens_eq_ok_iff.trans ?_
    constructor
    · intro hd
      exact ⟨ts, rfl, hd⟩
    · rintro ⟨ts', htokens, hd⟩
      cases htokens
      exact hd
  | error place => simp

end SheetGrammar
