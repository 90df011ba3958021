import SheetGrammar.Canonical.Printer
import SheetGrammar.Proofs.GrammarNodes

/-!
Derivations of the canonical text. A derivation is a tree over the rules

    grammar    ::= ε | ∅ | atom ":" atom | "$" atom | "(" form ")"
    form       ::= "seq" grammar* | "alt" grammar* | "rename" atom atom grammar | "single" atom grammar
                 | "coll" definition* | "qual" definition*
    definition ::= "(" atom grammar ")"
    atom       ::= word | quoted

whose leaves are tokens of the right kinds. `Phrase` are the things that a rule can be for, and a leaf is a `Terminal`,
the `Keyword` of a form or an `Atom`. A derivation says nothing of how a text is read: it has a list of tokens, its
leaves from left to right, and a value, what it stands for.

- `Derivation.append_tokens_inj`: a list of tokens begins with the leaves of one derivation at most, and so a
  derivation is known by its leaves.
- `Derivation.distinct_iff`: names are told apart in a derivation exactly if they are in the grammar that it stands for.
-/

namespace SheetGrammar

namespace Canonical

/-! ## Derivations -/

@[ext] structure Terminal (kind : Kind) where
  token : Token
  kind_eq : token.kind = kind

inductive Head where
  | combine (how : Combination)
  | rename
  | single
  | table (scoping : Scoping)

def Head.word : Head → String
  | combine how => combinationWord how
  | rename => "rename"
  | single => "single"
  | table scoping => scopingWord scoping

theorem Head.word_injective {a b : Head} (h : a.word = b.word) : a = b := by
  rcases a with (_ | _) | _ | _ | (_ | _) <;> rcases b with (_ | _) | _ | _ | (_ | _) <;>
    first | rfl | exact absurd h (by decide)

@[ext] structure Keyword (head : Head) where
  token : Token
  kind_eq : token.kind = .word
  lexeme_eq : token.lexeme = head.word

@[grind →] theorem Terminal.kind_unique {k l : Kind} {s : Terminal k} {t : Terminal l} (h : s.token = t.token) :
    k = l :=
  s.kind_eq.symm.trans ((congrArg Token.kind h).trans t.kind_eq)

@[grind →] theorem Keyword.head_unique {a b : Head} {s : Keyword a} {t : Keyword b} (h : s.token = t.token) : a = b :=
  Head.word_injective (s.lexeme_eq.symm.trans ((congrArg Token.lexeme h).trans t.lexeme_eq))

attribute [grind →] Terminal.ext Keyword.ext

inductive Atom where
  | word (leaf : Terminal .word)
  | quoted (leaf : Terminal .quoted)

namespace Atom

def token : Atom → Token
  | word leaf => leaf.token
  | quoted leaf => leaf.token

def text : Atom → String
  | word leaf => leaf.token.lexeme
  | quoted leaf => String.ofList (unquote leaf.token.lexeme.toList)

theorem atom?_token (atom : Atom) : atom.token.atom? = some atom.text := by
  cases atom with
  | word t => simp [Token.atom?, token, text, t.kind_eq]
  | quoted t => simp [Token.atom?, token, text, t.kind_eq]

theorem exists_of_atom? {t : Token} {s : String} (h : t.atom? = some s) :
    ∃ atom : Atom, atom.token = t ∧ atom.text = s := by
  unfold Token.atom? at h
  split at h
  · next hk => exact ⟨.word ⟨t, hk⟩, rfl, Option.some.inj h⟩
  · next hk => exact ⟨.quoted ⟨t, hk⟩, rfl, Option.some.inj h⟩
  · cases h

theorem kind_token (atom : Atom) : atom.token.kind = .word ∨ atom.token.kind = .quoted := by
  cases atom with
  | word t => exact .inl t.kind_eq
  | quoted t => exact .inr t.kind_eq

@[grind →] theorem kind_of_token_eq {k : Kind} {atom : Atom} {t : Terminal k} (h : atom.token = t.token) :
    k = .word ∨ k = .quoted := by
  rw [← t.kind_eq, ← h]
  exact atom.kind_token

@[grind →] theorem token_injective {a b : Atom} (h : a.token = b.token) : a = b := by
  cases a with
  | word s =>
    cases b with
    | word t => exact congrArg word (Terminal.ext h)
    | quoted t => cases Terminal.kind_unique h
  | quoted s =>
    cases b with
    | word t => cases Terminal.kind_unique h
    | quoted t => exact congrArg quoted (Terminal.ext h)

end Atom

inductive Phrase where
  | grammar
  | form
  | grammars
  | definition
  | definitions

abbrev Phrase.Value : Phrase → Type
  | grammar | form => Grammar
  | grammars => List Grammar
  | definition => String × Grammar
  | definitions => List (String × Grammar)

inductive Derivation : Phrase → Type
  | epsilon (leaf : Terminal .epsilon) : Derivation .grammar
  | null (leaf : Terminal .null) : Derivation .grammar
  | literal (tape : Atom) (colon : Terminal .colon) (text : Atom) : Derivation .grammar
  | embed (dollar : Terminal .dollar) (symbol : Atom) : Derivation .grammar
  | parens (opening : Terminal .openParen) (form : Derivation .form) (closing : Terminal .closeParen) :
      Derivation .grammar
  | combine (how : Combination) (head : Keyword (.combine how)) (parts : Derivation .grammars) : Derivation .form
  | rename (head : Keyword .rename) (source target : Atom) (body : Derivation .grammar) : Derivation .form
  | single (head : Keyword .single) (tape : Atom) (body : Derivation .grammar) : Derivation .form
  | table (scoping : Scoping) (head : Keyword (.table scoping)) (entries : Derivation .definitions) : Derivation .form
  | noGrammars : Derivation .grammars
  | grammars (first : Derivation .grammar) (rest : Derivation .grammars) : Derivation .grammars
  | definition (opening : Terminal .openParen) (name : Atom) (body : Derivation .grammar)
      (closing : Terminal .closeParen) :
      Derivation .definition
  | noDefinitions : Derivation .definitions
  | definitions (first : Derivation .definition) (rest : Derivation .definitions) : Derivation .definitions

namespace Derivation

def tokens : {p : Phrase} → Derivation p → List Token
  | _, epsilon leaf => [leaf.token]
  | _, null leaf => [leaf.token]
  | _, literal tape colon text => [tape.token, colon.token, text.token]
  | _, embed dollar symbol => [dollar.token, symbol.token]
  | _, parens opening form closing => opening.token :: (form.tokens ++ [closing.token])
  | _, combine _ head parts => head.token :: parts.tokens
  | _, rename head source target body => head.token :: source.token :: target.token :: body.tokens
  | _, single head tape body => head.token :: tape.token :: body.tokens
  | _, table _ head entries => head.token :: entries.tokens
  | _, noGrammars => []
  | _, grammars first rest => first.tokens ++ rest.tokens
  | _, definition opening name body closing => opening.token :: name.token :: (body.tokens ++ [closing.token])
  | _, noDefinitions => []
  | _, definitions first rest => first.tokens ++ rest.tokens

def value : {p : Phrase} → Derivation p → p.Value
  | _, epsilon _ => Grammar.epsilon {}
  | _, null _ => Grammar.null {}
  | _, literal tape _ text => Grammar.literal {} tape.text text.text
  | _, embed _ symbol => Grammar.embed {} symbol.text
  | _, parens _ form _ => form.value
  | _, combine how _ parts => Grammar.combine {} how parts.value
  | _, rename _ source target body => Grammar.relabel {} (.rename source.text target.text) body.value
  | _, single _ tape body => Grammar.relabel {} (.single tape.text) body.value
  | _, table scoping _ entries => Grammar.table {} scoping entries.value
  | _, noGrammars => []
  | _, grammars first rest => first.value :: rest.value
  | _, definition _ name body _ => (name.text, body.value)
  | _, noDefinitions => []
  | _, definitions first rest => first.value :: rest.value

/-- No form of definitions has two names of one key. -/
def Distinct : {p : Phrase} → Derivation p → Prop
  | _, epsilon _ | _, null _ | _, literal _ _ _ | _, embed _ _ | _, noGrammars | _, noDefinitions => True
  | _, parens _ form _ => form.Distinct
  | _, combine _ _ parts => parts.Distinct
  | _, rename _ _ _ body => body.Distinct
  | _, single _ _ body => body.Distinct
  | _, table _ _ entries => SymbolTable.WellFormed entries.value ∧ entries.Distinct
  | _, grammars first rest => first.Distinct ∧ rest.Distinct
  | _, definition _ _ body _ => body.Distinct
  | _, definitions first rest => first.Distinct ∧ rest.Distinct

/-! ## Names told apart -/

/-- What it is for the value of a phrase to have no table with two entries of one key. -/
def ValueWellFormed : (p : Phrase) → p.Value → Prop
  | .grammar, g | .form, g => Grammar.WellFormed g
  | .grammars, gs => ∀ g ∈ gs, Grammar.WellFormed g
  | .definition, d => Grammar.WellFormed d.2
  | .definitions, ds => ∀ d ∈ ds, Grammar.WellFormed d.2

theorem distinct_iff {p : Phrase} (d : Derivation p) : d.Distinct ↔ ValueWellFormed p d.value := by
  induction d with
  | epsilon leaf => simp [Distinct, ValueWellFormed, value]
  | null leaf => simp [Distinct, ValueWellFormed, value]
  | literal tape colon text => simp [Distinct, ValueWellFormed, value]
  | embed dollar symbol => simp [Distinct, ValueWellFormed, value]
  | parens opening form closing ih => exact ih
  | combine how head parts ih => simpa [Distinct, ValueWellFormed, value] using ih
  | rename head source target body ih => simpa [Distinct, ValueWellFormed, value] using ih
  | single head tape body ih => simpa [Distinct, ValueWellFormed, value] using ih
  | table scoping head entries ih =>
    rw [Distinct, ih]
    exact Grammar.wellFormed_table.symm
  | noGrammars => simp [Distinct, ValueWellFormed, value]
  | grammars first rest ihFirst ihRest =>
    rw [Distinct, ihFirst, ihRest]
    exact List.forall_mem_cons.symm
  | definition opening name body closing ih => exact ih
  | noDefinitions => simp [Distinct, ValueWellFormed, value]
  | definitions first rest ihFirst ihRest =>
    rw [Distinct, ihFirst, ihRest]
    exact List.forall_mem_cons.symm

/-! ## One derivation at most -/

/-- No grammar begins with a closing parenthesis. -/
theorem grammar_ne_closing (d : Derivation .grammar) (closing : Terminal .closeParen) {rest after : List Token} :
    d.tokens ++ rest ≠ closing.token :: after := by
  intro h
  cases d <;> simp only [tokens, List.cons_append, List.nil_append, List.cons.injEq] at h <;> grind

theorem definition_ne_closing (d : Derivation .definition) (closing : Terminal .closeParen) {rest after : List Token} :
    d.tokens ++ rest ≠ closing.token :: after := by
  intro h
  cases d
  simp only [tokens, List.cons_append, List.cons.injEq] at h
  cases Terminal.kind_unique h.1

/-- What has to come after a phrase so that its end can be seen. -/
def Ends : Phrase → List Token → Prop
  | .grammar, _ | .definition, _ => True
  | .form, rest | .grammars, rest | .definitions, rest =>
    ∃ (closing : Terminal .closeParen) (after : List Token), rest = closing.token :: after

/-- A list of tokens begins with the leaves of one derivation at most. -/
theorem append_tokens_inj {p : Phrase} (d : Derivation p) {d' : Derivation p} {r r' : List Token}
    (h : d.tokens ++ r = d'.tokens ++ r') (hr : Ends p r) (hr' : Ends p r') : d = d' ∧ r = r' := by
  induction d generalizing r r' with
  | epsilon leaf =>
    cases d' <;> simp only [tokens, List.cons_append, List.nil_append, List.cons.injEq] at h <;> grind
  | null leaf =>
    cases d' <;> simp only [tokens, List.cons_append, List.nil_append, List.cons.injEq] at h <;> grind
  | literal tape colon text =>
    cases d' <;> simp only [tokens, List.cons_append, List.nil_append, List.cons.injEq] at h <;> grind
  | embed dollar symbol =>
    cases d' <;> simp only [tokens, List.cons_append, List.nil_append, List.cons.injEq] at h <;> grind
  | parens opening form closing ih =>
    cases d' with
    | parens opening' form' closing' =>
      simp only [tokens, List.cons_append, List.append_assoc, List.cons.injEq] at h
      obtain ⟨rfl, hrest⟩ := ih h.2 ⟨closing, _, rfl⟩ ⟨closing', _, rfl⟩
      grind
    | _ =>
      simp only [tokens, List.cons_append, List.cons.injEq] at h
      grind
  | combine how head parts ih =>
    -- forms with different words differ in their first leaf
    cases d' with
    | combine how' head' parts' =>
      simp only [tokens, List.cons_append, List.cons.injEq] at h
      cases Keyword.head_unique h.1
      obtain ⟨rfl, rfl⟩ := ih h.2 hr hr'
      grind
    | _ =>
      simp only [tokens, List.cons_append, List.cons.injEq] at h
      cases Keyword.head_unique h.1
  | rename head source target body ih =>
    cases d' with
    | rename head' source' target' body' =>
      simp only [tokens, List.cons_append, List.cons.injEq] at h
      obtain ⟨rfl, rfl⟩ := ih h.2.2.2 trivial trivial
      grind
    | _ =>
      simp only [tokens, List.cons_append, List.cons.injEq] at h
      cases Keyword.head_unique h.1
  | single head tape body ih =>
    cases d' with
    | single head' tape' body' =>
      simp only [tokens, List.cons_append, List.cons.injEq] at h
      obtain ⟨rfl, rfl⟩ := ih h.2.2 trivial trivial
      grind
    | _ =>
      simp only [tokens, List.cons_append, List.cons.injEq] at h
      cases Keyword.head_unique h.1
  | table scoping head entries ih =>
    cases d' with
    | table scoping' head' entries' =>
      simp only [tokens, List.cons_append, List.cons.injEq] at h
      cases Keyword.head_unique h.1
      obtain ⟨rfl, rfl⟩ := ih h.2 hr hr'
      grind
    | _ =>
      simp only [tokens, List.cons_append, List.cons.injEq] at h
      cases Keyword.head_unique h.1
  | noGrammars =>
    cases d' with
    | noGrammars => exact ⟨rfl, h⟩
    | grammars first rest =>
      obtain ⟨closing, after, rfl⟩ := hr
      rw [tokens, tokens, List.append_assoc] at h
      exact absurd h.symm (first.grammar_ne_closing closing)
  | grammars first rest ihFirst ihRest =>
    rw [tokens, List.append_assoc] at h
    cases d' with
    | noGrammars =>
      obtain ⟨closing, after, rfl⟩ := hr'
      exact absurd h (first.grammar_ne_closing closing)
    | grammars first' rest' =>
      rw [tokens, List.append_assoc] at h
      obtain ⟨rfl, hrest⟩ := ihFirst h trivial trivial
      obtain ⟨rfl, rfl⟩ := ihRest hrest hr hr'
      exact ⟨rfl, rfl⟩
  | definition opening name body closing ih =>
    cases d' with
    | definition opening' name' body' closing' =>
      simp only [tokens, List.cons_append, List.append_assoc, List.cons.injEq] at h
      obtain ⟨rfl, hrest⟩ := ih h.2.2 trivial trivial
      grind
  | noDefinitions =>
    cases d' with
    | noDefinitions => exact ⟨rfl, h⟩
    | definitions first rest =>
      obtain ⟨closing, after, rfl⟩ := hr
      rw [tokens, tokens, List.append_assoc] at h
      exact absurd h.symm (first.definition_ne_closing closing)
  | definitions first rest ihFirst ihRest =>
    rw [tokens, List.append_assoc] at h
    cases d' with
    | noDefinitions =>
      obtain ⟨closing, after, rfl⟩ := hr'
      exact absurd h (first.definition_ne_closing closing)
    | definitions first' rest' =>
      rw [tokens, List.append_assoc] at h
      obtain ⟨rfl, hrest⟩ := ihFirst h trivial trivial
      obtain ⟨rfl, rfl⟩ := ihRest hrest hr hr'
      exact ⟨rfl, rfl⟩

end Derivation

end Canonical

end SheetGrammar
