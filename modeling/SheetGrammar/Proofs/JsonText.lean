import SheetGrammar.Json.Reader

/-!
JSON texts read back. A value is written without blanks, every string with its escapes and every number in decimal
digits; it is read one token at a time, by a machine that keeps what is open around the token.

- `stringRest?_escaped`: what is written for a text is read as the text, whatever follows the closing quote.
- `number?_render`: digits are read as the number that they are, if none follows.
- `Value.Natural`: a value whose numbers are all whole and not negative.
- `cuts_of_natural`: what is written for such a value is cut into the tokens of the value, whatever follows that cannot
  be part of a number.
- `taken_of_natural`: the machine takes the tokens of a value and hands the value on, where there is room for it.
- `read_render`: so a value that nests to the limit at most is read back.
- `depth_of_read`: what is read nests to the limit at most. Every state that the machine comes to has room
  (`State.Fits`) for what is open in it.
-/

namespace SheetGrammar.Json

/-! ## Strings -/

theorem hexValue?_digitChar : ∀ n < 16, hexValue? (Nat.digitChar n) = some n := by decide

def lettered : List Char := ['"', '\\', '\n', '\r', '\t', '\x08', '\x0c']

theorem escapeChar_of_notMem {c : Char} (h : c ∉ lettered) :
    escapeChar c = if c.toNat < 0x20 then
      ['\\', 'u', '0', '0', Nat.digitChar (c.toNat / 16), Nat.digitChar (c.toNat % 16)] else [c] := by
  simp only [lettered, List.mem_cons, List.not_mem_nil, or_false, not_or] at h
  simp [escapeChar, h]

/-- The code unit that a control character is written as. -/
theorem unit?_control {n : Nat} (h : n < 0x20) :
    unit? '0' '0' (Nat.digitChar (n / 16)) (Nat.digitChar (n % 16)) = some n := by
  have hzero : hexValue? '0' = some 0 := rfl
  have hhigh := hexValue?_digitChar (n / 16) (by omega)
  have hlow := hexValue?_digitChar (n % 16) (by omega)
  simp only [unit?, hzero, hhigh, hlow, Option.bind_eq_bind, Option.bind_some, Option.pure_def, Option.some.injEq]
  omega

/-- A character as it is written in a string is read as the character. -/
theorem stringChar?_escapeChar (c : Char) (rest : List Char) : stringChar? (escapeChar c ++ rest) = some (c, rest) := by
  by_cases hletter : c ∈ lettered
  · simp only [lettered, List.mem_cons, List.not_mem_nil, or_false] at hletter
    rcases hletter with rfl | rfl | rfl | rfl | rfl | rfl | rfl <;> rfl
  · rw [escapeChar_of_notMem hletter]
    split
    · next hcontrol =>
      have hlow : isLowSurrogate c.toNat = false := by simp [isLowSurrogate]; omega
      have hhigh : isHighSurrogate c.toNat = false := by simp [isHighSurrogate]; omega
      simp [stringChar?, unit?_control hcontrol, hlow, hhigh]
    · next hcontrol =>
      have hback : c ≠ '\\' := by rintro rfl; exact hletter (by decide)
      have hquote : c ≠ '"' := by rintro rfl; exact hletter (by decide)
      simp [stringChar?, hback, hquote, hcontrol]

theorem escapeChar_head (c : Char) : ∃ first rest, escapeChar c = first :: rest ∧ first ≠ '"' := by
  by_cases hletter : c ∈ lettered
  · simp only [lettered, List.mem_cons, List.not_mem_nil, or_false] at hletter
    rcases hletter with rfl | rfl | rfl | rfl | rfl | rfl | rfl <;> exact ⟨'\\', _, rfl, by decide⟩
  · rw [escapeChar_of_notMem hletter]
    split
    · exact ⟨'\\', _, rfl, by decide⟩
    · refine ⟨c, [], rfl, ?_⟩
      rintro rfl
      exact hletter (by decide)

/-- One more character of a string is taken. -/
theorem stringRest?_of_stringChar? {taken text rest : List Char} {first d : Char} (hquote : first ≠ '"')
    (h : stringChar? (first :: text) = some (d, rest)) :
      stringRest? taken (first :: text) = stringRest? (d :: taken) rest := by
  rw [stringRest?, if_neg hquote]
  split
  · next hc =>
    rw [h] at hc
    cases hc
    rfl
  · next hc => rw [h] at hc; cases hc

/-- What is written for a text is read as the text, whatever follows the closing quote. -/
theorem stringRest?_escaped (taken text rest : List Char) :
    stringRest? taken (text.flatMap escapeChar ++ '"' :: rest) =
      some (String.ofList (taken.reverse ++ text), rest) := by
  induction text generalizing taken with
  | nil =>
    rw [List.flatMap_nil, List.nil_append, stringRest?, if_pos rfl, List.append_nil]
  | cons c text ih =>
    obtain ⟨first, more, hescape, hquote⟩ := escapeChar_head c
    have hchar := stringChar?_escapeChar c (text.flatMap escapeChar ++ '"' :: rest)
    rw [hescape, List.cons_append] at hchar
    rw [List.flatMap_cons, List.append_assoc, hescape, List.cons_append, stringRest?_of_stringChar? hquote hchar, ih]
    simp

/-! ## Numbers -/

/-- The first digit of a number is no zero, unless the number is zero. -/
theorem head?_toDigits {n : Nat} (h : 0 < n) : (Nat.toDigits 10 n).head? ≠ some '0' := by
  induction n using Nat.strongRecOn with
  | _ n ih =>
    by_cases hlt : n < 10
    · rw [Nat.toDigits_of_lt_base hlt]
      have hdigit : ∀ d < 10, 0 < d → [Nat.digitChar d].head? ≠ some '0' := by decide
      exact hdigit n hlt h
    · rw [Nat.toDigits_of_base_le (by decide) (by omega), List.head?_append]
      have hfront := ih (n / 10) (by omega) (by omega)
      cases hhead : (Nat.toDigits 10 (n / 10)).head? with
      | none => exact absurd (List.head?_eq_none_iff.mp hhead) Nat.toDigits_ne_nil
      | some c =>
        rw [hhead] at hfront
        exact hfront

/-- No digit follows a leading zero. -/
theorem leadingZero_toDigits (n : Nat) : ¬((Nat.toDigits 10 n).head? = some '0' ∧ 1 < (Nat.toDigits 10 n).length) := by
  rintro ⟨hhead, hlength⟩
  by_cases hzero : n = 0
  · subst hzero
    exact absurd hlength (by decide)
  · exact head?_toDigits (by omega) hhead

/-- What can follow a number without becoming part of it. -/
def Delimited : List Char → Prop
  | [] => True
  | c :: _ => c.isDigit = false ∧ c ≠ '.' ∧ c ≠ 'e' ∧ c ≠ 'E'

theorem digits?_toDigits (n : Nat) {rest : List Char} (h : Delimited rest) :
    digits? (Nat.toDigits 10 n ++ rest) = some (Nat.toDigits 10 n, rest) := by
  have hall : ∀ c ∈ Nat.toDigits 10 n, c.isDigit = true :=
    fun c hc => Nat.isDigit_of_mem_toDigits (by decide) (by decide) hc
  have hrest : rest.takeWhile Char.isDigit = [] ∧ rest.dropWhile Char.isDigit = rest := by
    cases rest with
    | nil => exact ⟨rfl, rfl⟩
    | cons c rest =>
      have hc : c.isDigit = false := h.1
      simp [hc]
  unfold digits?
  rw [List.takeWhile_append_of_pos hall, List.dropWhile_append_of_pos hall, hrest.1, hrest.2, List.append_nil]
  simp

theorem fraction?_of_delimited {rest : List Char} (h : Delimited rest) : fraction? rest = some ([], rest) := by
  unfold fraction?
  split
  · exact absurd rfl h.2.1
  · rfl

theorem exponent?_of_delimited {rest : List Char} (h : Delimited rest) : exponent? rest = some (none, rest) := by
  cases rest with
  | nil => rfl
  | cons c rest =>
    have hc : ¬(c = 'e' ∨ c = 'E') := not_or.mpr h.2.2
    rw [exponent?, if_neg hc]

theorem minus_toDigits (n : Nat) (rest : List Char) :
    minus (Nat.toDigits 10 n ++ rest) = (false, Nat.toDigits 10 n ++ rest) := by
  cases hdigits : Nat.toDigits 10 n with
  | nil => exact absurd hdigits Nat.toDigits_ne_nil
  | cons c digits =>
    have hc : c.isDigit = true :=
      Nat.isDigit_of_mem_toDigits (b := 10) (n := n) (by decide) (by decide) (by simp [hdigits])
    rw [List.cons_append]
    unfold minus
    split
    · next heq =>
      cases heq
      exact absurd hc (by decide)
    · rfl

/-- Digits are read as the number that they are, if none follows. -/
theorem number?_render (n : UInt64) {rest : List Char} (h : Delimited rest) :
    number? ((Number.natural n).render ++ rest) = some (.natural n, rest) := by
  have hvalue : Numeral.digitsValue (Nat.toDigits 10 n.toNat) = n.toNat :=
    Nat.ofDigitChars_eq_foldl.symm.trans Nat.ofDigitChars_ten_toDigits
  have hbound : n.toNat < Nat.pow 2 64 := n.toNat_lt
  rw [Number.render, Nat.toString_eq_repr, Nat.toList_repr]
  simp only [number?, minus_toDigits, digits?_toDigits _ h, if_neg (leadingZero_toDigits _), fraction?_of_delimited h,
    exponent?_of_delimited h]
  simp [Number.ofNumeral?, hvalue, hbound]

/-! ## Tokens -/

mutual

def Value.tokens : Value → List Token
  | .string s => [.string s]
  | .array items => .openBracket :: (Value.tokensOfItems items ++ [.closeBracket])
  | .object fields => .openBrace :: (Value.tokensOfFields fields ++ [.closeBrace])
  | v => [.scalar v]

def Value.tokensOfItems : List Value → List Token
  | [] => []
  | [v] => v.tokens
  | v :: rest => v.tokens ++ .comma :: Value.tokensOfItems rest

def Value.tokensOfFields : List (String × Value) → List Token
  | [] => []
  | [(key, v)] => .string key :: .colon :: v.tokens
  | (key, v) :: rest => .string key :: .colon :: (v.tokens ++ .comma :: Value.tokensOfFields rest)

end

theorem Value.writeItems_cons (v w : Value) (rest : List Value) :
    Value.writeItems (v :: w :: rest) = v.write ++ ',' :: Value.writeItems (w :: rest) := rfl

theorem Value.tokensOfItems_cons (v w : Value) (rest : List Value) :
    Value.tokensOfItems (v :: w :: rest) = v.tokens ++ .comma :: Value.tokensOfItems (w :: rest) := rfl

theorem Value.writeFields_cons (key : String) (v : Value) (field : String × Value) (rest : List (String × Value)) :
    Value.writeFields ((key, v) :: field :: rest) =
      writeString key ++ ':' :: (v.write ++ ',' :: Value.writeFields (field :: rest)) := rfl

theorem Value.tokensOfFields_cons (key : String) (v : Value) (field : String × Value) (rest : List (String × Value)) :
    Value.tokensOfFields ((key, v) :: field :: rest) =
      .string key :: .colon :: (v.tokens ++ .comma :: Value.tokensOfFields (field :: rest)) := rfl

inductive Value.Natural : Value → Prop
  | null : Natural .null
  | bool (b : Bool) : Natural (.bool b)
  | number (n : UInt64) : Natural (.number (.natural n))
  | string (s : String) : Natural (.string s)
  | array {items : List Value} : (∀ v ∈ items, Natural v) → Natural (.array items)
  | object {fields : List (String × Value)} : (∀ field ∈ fields, Natural field.2) → Natural (.object fields)

/-- The token that a text begins with is cut off. -/
theorem scan_first {found : List Token} {c : Char} {rest after : List Char} {token : Token} (hspace : isSpace c = false)
    (h : first? c rest = some (token, after)) : scan found (c :: rest) = scan (token :: found) after := by
  rw [scan, if_neg (Bool.eq_false_iff.mp hspace)]
  split
  · next hsome =>
    rw [h] at hsome
    cases hsome
    rfl
  · next hnone => rw [h] at hnone; cases hnone

theorem scan_writeString (s : String) (found : List Token) (rest : List Char) :
    scan found (writeString s ++ rest) = scan (.string s :: found) rest := by
  have hread : stringRest? [] (s.toList.flatMap escapeChar ++ '"' :: rest) = some (s, rest) := by
    rw [stringRest?_escaped, List.reverse_nil, List.nil_append, String.ofList_toList]
  rw [writeString, List.cons_append, List.append_assoc, List.singleton_append]
  refine scan_first rfl ?_
  rw [first?, hread]
  rfl

/-- A number is a token of its own, since it starts with a digit. -/
theorem scan_render (n : UInt64) (found : List Token) {rest : List Char} (h : Delimited rest) :
    scan found ((Number.natural n).render ++ rest) = scan (.scalar (.number (.natural n)) :: found) rest := by
  have hread := number?_render n h
  have hdigits : (Number.natural n).render = Nat.toDigits 10 n.toNat := by
    rw [Number.render, Nat.toString_eq_repr, Nat.toList_repr]
  rw [hdigits] at hread ⊢
  cases hcons : Nat.toDigits 10 n.toNat with
  | nil => exact absurd hcons Nat.toDigits_ne_nil
  | cons c digits =>
    have hc : c.isDigit = true :=
      Nat.isDigit_of_mem_toDigits (b := 10) (n := n.toNat) (by decide) (by decide) (by simp [hcons])
    rw [hcons, List.cons_append] at hread
    rw [List.cons_append]
    refine scan_first ?_ ?_
    · rw [Bool.eq_false_iff]
      intro hspace
      simp only [isSpace, Bool.or_eq_true, beq_iff_eq] at hspace
      rcases hspace with ((rfl | rfl) | rfl) | rfl <;> exact absurd hc (by decide)
    · unfold first?
      split
      case h_11 =>
        rw [hread]
        rfl
      all_goals exact absurd hc (by decide)

/-- What is written for a value is cut into its tokens, whatever follows that cannot be part of a number. -/
def Cuts (v : Value) : Prop :=
  ∀ found rest, Delimited rest → scan found (v.write ++ rest) = scan (v.tokens.reverse ++ found) rest

theorem delimited_comma (rest : List Char) : Delimited (',' :: rest) := by simp [Delimited]

theorem delimited_bracket (rest : List Char) : Delimited (']' :: rest) := by simp [Delimited]

theorem delimited_brace (rest : List Char) : Delimited ('\x7d' :: rest) := by simp [Delimited]

theorem scan_writeItems {items : List Value} (h : ∀ v ∈ items, Cuts v) (found : List Token) {rest : List Char}
    (hrest : Delimited rest) :
    scan found (Value.writeItems items ++ rest) = scan ((Value.tokensOfItems items).reverse ++ found) rest := by
  induction items generalizing found with
  | nil => rfl
  | cons v items ih =>
    obtain ⟨hv, hitems⟩ := List.forall_mem_cons.mp h
    cases items with
    | nil => exact hv found rest hrest
    | cons w items =>
      rw [Value.writeItems_cons, List.append_assoc, List.cons_append, hv _ _ (delimited_comma _),
        scan_first (c := ',') rfl rfl, ih hitems, Value.tokensOfItems_cons]
      simp

theorem scan_writeFields {fields : List (String × Value)} (h : ∀ field ∈ fields, Cuts field.2) (found : List Token)
    {rest : List Char} (hrest : Delimited rest) :
    scan found (Value.writeFields fields ++ rest) = scan ((Value.tokensOfFields fields).reverse ++ found) rest := by
  induction fields generalizing found with
  | nil => rfl
  | cons field fields ih =>
    obtain ⟨key, v⟩ := field
    obtain ⟨hv, hfields⟩ := List.forall_mem_cons.mp h
    cases fields with
    | nil =>
      rw [Value.writeFields, List.append_assoc, List.cons_append, scan_writeString, scan_first (c := ':') rfl rfl,
        hv _ _ hrest, Value.tokensOfFields]
      simp
    | cons field fields =>
      rw [Value.writeFields_cons, List.append_assoc, List.cons_append, scan_writeString, scan_first (c := ':') rfl rfl,
        List.append_assoc, List.cons_append, hv _ _ (delimited_comma _), scan_first (c := ',') rfl rfl, ih hfields,
        Value.tokensOfFields_cons]
      simp

theorem cuts_of_natural {v : Value} (h : v.Natural) : Cuts v := by
  induction h with
  | null => intro found rest _; exact scan_first rfl rfl
  | bool b =>
    intro found rest _
    cases b
    · exact scan_first rfl rfl
    · exact scan_first rfl rfl
  | number n => intro found rest hrest; exact scan_render n found hrest
  | string s => intro found rest _; exact scan_writeString s found rest
  | @array items _ ih =>
    intro found rest _
    rw [Value.write, List.cons_append, scan_first (c := '[') rfl rfl, List.append_assoc, List.singleton_append,
      scan_writeItems ih _ (delimited_bracket rest), scan_first (c := ']') rfl rfl, Value.tokens]
    simp
  | @object fields _ ih =>
    intro found rest _
    rw [Value.write, List.cons_append, scan_first (c := '\x7b') rfl rfl, List.append_assoc, List.singleton_append,
      scan_writeFields ih _ (delimited_brace rest), scan_first (c := '\x7d') rfl rfl, Value.tokens]
    simp

theorem tokens_render {v : Value} (h : v.Natural) : tokens v.render = v.tokens := by
  have hcut := cuts_of_natural h [] [] trivial
  rw [List.append_nil, List.append_nil] at hcut
  rw [tokens, Value.render, String.toList_ofList, hcut, scan, List.reverse_reverse]

/-! ## Depth -/

theorem Value.depthItems_le_iff {items : List Value} {n : Nat} :
    Value.depthItems items ≤ n ↔ ∀ v ∈ items, v.depth ≤ n := by
  induction items with
  | nil => simp [Value.depthItems]
  | cons v items ih => rw [Value.depthItems, Nat.max_le, ih, List.forall_mem_cons]

theorem Value.depthFields_le_iff {fields : List (String × Value)} {n : Nat} :
    Value.depthFields fields ≤ n ↔ ∀ field ∈ fields, field.2.depth ≤ n := by
  induction fields with
  | nil => simp [Value.depthFields]
  | cons field fields ih => rw [Value.depthFields, Nat.max_le, ih, List.forall_mem_cons]

/-! ## Reading back -/

section Reading

variable {limit : Nat} {state next : State} {token : Token} {rest : List Token} {frames : List Frame}

theorem run_of_step (h : state.step limit token = some next) :
    state.run limit (token :: rest) = next.run limit rest := by
  obtain ⟨awaited, frames⟩ := state
  cases awaited with
  | nothing v => cases h
  | _ => simp only [State.run, h]

/-- The state takes the first token of a value, which goes to the innermost of the given frames. -/
def AwaitsValue (limit : Nat) (state : State) (frames : List Frame) : Prop :=
  ∀ token, token ≠ .closeBracket → state.step limit token = State.beginValue limit frames token

theorem awaitsValue_value : AwaitsValue limit ⟨.value, frames⟩ frames := by
  intro token _
  rfl

theorem awaitsValue_firstItem : AwaitsValue limit ⟨.firstItem, frames⟩ (.items [] :: frames) := by
  intro token hclose
  cases token with
  | closeBracket => exact absurd rfl hclose
  | _ => rfl

/-- The tokens of the value are taken and the value handed on, where there is room for it. -/
def Taken (limit : Nat) (v : Value) : Prop :=
  ∀ state frames rest, AwaitsValue limit state frames → frames.length + v.depth ≤ limit →
    state.run limit (v.tokens ++ rest) = (State.deliver v frames).run limit rest

/-- The items that are left of an array are taken, and the array is closed. -/
theorem run_items {items : List Value} (h : ∀ v ∈ items, Taken limit v) (hitems : items ≠ []) {done : List Value}
    (hstate : AwaitsValue limit state (.items done :: frames))
    (hroom : frames.length + (1 + Value.depthItems items) ≤ limit) :
    state.run limit (Value.tokensOfItems items ++ .closeBracket :: rest) =
      (State.deliver (.array (done.reverse ++ items)) frames).run limit rest := by
  induction items generalizing state done with
  | nil => exact absurd rfl hitems
  | cons v items ih =>
    obtain ⟨hv, hrest⟩ := List.forall_mem_cons.mp h
    rw [Value.depthItems] at hroom
    have hfirst : (Frame.items done :: frames).length + v.depth ≤ limit := by rw [List.length_cons]; omega
    cases items with
    | nil =>
      rw [Value.tokensOfItems, hv _ _ _ hstate hfirst, State.deliver, run_of_step rfl, List.reverse_cons]
    | cons w items =>
      rw [Value.tokensOfItems_cons, List.append_assoc, List.cons_append, hv _ _ _ hstate hfirst, State.deliver,
        run_of_step rfl, ih hrest (List.cons_ne_nil _ _) awaitsValue_value (by omega)]
      simp

def AwaitsKey (limit : Nat) (state : State) (done : List (String × Value)) (frames : List Frame) : Prop :=
  ∀ key, state.step limit (.string key) = some ⟨.colon done key, frames⟩

theorem run_fields {fields : List (String × Value)} (h : ∀ field ∈ fields, Taken limit field.2) (hfields : fields ≠ [])
    {done : List (String × Value)} (hstate : AwaitsKey limit state done frames)
    (hroom : frames.length + (1 + Value.depthFields fields) ≤ limit) :
    state.run limit (Value.tokensOfFields fields ++ .closeBrace :: rest) =
      (State.deliver (.object (done.reverse ++ fields)) frames).run limit rest := by
  induction fields generalizing state done with
  | nil => exact absurd rfl hfields
  | cons field fields ih =>
    obtain ⟨key, v⟩ := field
    obtain ⟨hv, hrest⟩ := List.forall_mem_cons.mp h
    rw [Value.depthFields] at hroom
    have hfirst : (Frame.fields done key :: frames).length + v.depth ≤ limit := by rw [List.length_cons]; omega
    cases fields with
    | nil =>
      rw [Value.tokensOfFields, List.cons_append, List.cons_append, run_of_step (hstate key), run_of_step rfl,
        hv _ _ _ awaitsValue_value hfirst, State.deliver, run_of_step rfl, List.reverse_cons]
    | cons field fields =>
      rw [Value.tokensOfFields_cons, List.cons_append, List.cons_append, run_of_step (hstate key), run_of_step rfl,
        List.append_assoc, List.cons_append, hv _ _ _ awaitsValue_value hfirst, State.deliver, run_of_step rfl,
        ih hrest (List.cons_ne_nil _ _) (fun _ => rfl) (by omega)]
      simp

theorem taken_of_natural {v : Value} (h : v.Natural) : Taken limit v := by
  -- a value of one token is handed on as it comes
  have hleaf (v : Value) (token : Token) (htokens : v.tokens = [token]) (hclose : token ≠ .closeBracket)
      (hdeliver : ∀ frames, State.beginValue limit frames token = some (State.deliver v frames)) : Taken limit v := by
    intro state frames rest hstate _
    rw [htokens, List.singleton_append, run_of_step ((hstate token hclose).trans (hdeliver frames))]
  induction h with
  | null => exact hleaf _ (.scalar .null) rfl nofun fun _ => rfl
  | bool b => exact hleaf _ (.scalar (.bool b)) rfl nofun fun _ => rfl
  | number n => exact hleaf _ (.scalar (.number (.natural n))) rfl nofun fun _ => rfl
  | string s => exact hleaf _ (.string s) rfl nofun fun _ => rfl
  | @array items _ ih =>
    intro state frames rest hstate hroom
    rw [Value.depth] at hroom
    have hopen : state.step limit .openBracket = some ⟨.firstItem, frames⟩ := by
      rw [hstate .openBracket nofun, State.beginValue, if_pos (by omega)]
    rw [Value.tokens, List.cons_append, List.append_assoc, List.singleton_append, run_of_step hopen]
    by_cases hitems : items = []
    · subst hitems
      rw [Value.tokensOfItems, List.nil_append, run_of_step rfl]
    · rw [run_items ih hitems awaitsValue_firstItem hroom, List.reverse_nil, List.nil_append]
  | @object fields _ ih =>
    intro state frames rest hstate hroom
    rw [Value.depth] at hroom
    have hopen : state.step limit .openBrace = some ⟨.firstKey, frames⟩ := by
      rw [hstate .openBrace nofun, State.beginValue, if_pos (by omega)]
    rw [Value.tokens, List.cons_append, List.append_assoc, List.singleton_append, run_of_step hopen]
    by_cases hfields : fields = []
    · subst hfields
      rw [Value.tokensOfFields, List.nil_append, run_of_step rfl]
    · have hkey : AwaitsKey limit ⟨.firstKey, frames⟩ [] frames := fun _ => rfl
      rw [run_fields ih hfields hkey hroom, List.reverse_nil, List.nil_append]

end Reading

/-- A value without other numbers than naturals that nests to the limit at most is read back from its text. -/
theorem read_render {v : Value} {limit : Nat} (h : v.Natural) (hdepth : v.depth ≤ limit) :
    read limit v.render = .complete v false := by
  have htaken : State.start.run limit (v.tokens ++ []) = (State.deliver v []).run limit [] :=
    taken_of_natural h _ _ _ awaitsValue_value (by rw [List.length_nil]; omega)
  rw [List.append_nil] at htaken
  rw [read, tokens_render h, htaken]
  rfl

/-! ## How deep a text can nest -/

def Token.Flat : Token → Prop
  | .scalar v => v.depth = 0
  | _ => True

theorem flat_of_first? {c : Char} {rest after : List Char} {token : Token} (h : first? c rest = some (token, after)) :
    token.Flat := by
  unfold first? at h
  split at h
  case h_7 =>
    obtain ⟨_, -, hs⟩ := Option.map_eq_some_iff.1 h
    cases hs
    trivial
  case h_11 =>
    obtain ⟨_, -, hn⟩ := Option.map_eq_some_iff.1 h
    cases hn
    rfl
  all_goals
    cases h
    trivial

theorem flat_of_mem_scan {found : List Token} {text : List Char} (h : ∀ token ∈ found, token.Flat) :
    ∀ token ∈ scan found text, token.Flat := by
  fun_induction scan found text with
  | case1 found =>
    intro token ht
    exact h token (List.mem_reverse.mp ht)
  | case2 found c rest hspace ih => exact ih h
  | case3 found c rest hspace token after hfirst ih => exact ih (List.forall_mem_cons.mpr ⟨flat_of_first? hfirst, h⟩)
  | case4 found c rest hspace hfirst =>
    intro token ht
    rcases List.mem_cons.mp (List.mem_reverse.mp ht) with rfl | ht
    · trivial
    · exact h token ht

/-- With `around` more open around it, the open array or object leaves room for itself and all that is in it. -/
def Frame.Fits (limit around : Nat) : Frame → Prop
  | .items done => ∀ v ∈ done, v.depth + around < limit
  | .fields done _ => ∀ field ∈ done, field.2.depth + around < limit

def FramesFit (limit : Nat) : List Frame → Prop
  | [] => True
  | frame :: outer => outer.length < limit ∧ frame.Fits limit outer.length ∧ FramesFit limit outer

namespace State

def opened (state : State) : List Frame :=
  match state.awaited with
  | .value | .nothing _ => state.frames
  | .firstItem => .items [] :: state.frames
  | .moreItems done => .items done :: state.frames
  | .firstKey => .fields [] "" :: state.frames
  | .key done | .moreFields done => .fields done "" :: state.frames
  | .colon done key => .fields done key :: state.frames

def Fits (limit : Nat) (state : State) : Prop :=
  FramesFit limit state.opened ∧ ∀ v, state.awaited = .nothing v → v.depth ≤ limit

variable {limit : Nat} {state next : State} {token : Token} {frames : List Frame} {v : Value}

theorem fits_deliver (hframes : FramesFit limit frames) (hv : v.depth + frames.length ≤ limit) :
    (deliver v frames).Fits limit := by
  match frames with
  | [] =>
    refine ⟨trivial, ?_⟩
    intro w hw
    cases hw
    exact hv
  | .items done :: outer =>
    obtain ⟨hroom, hdone, houter⟩ := hframes
    refine ⟨⟨hroom, ?_, houter⟩, nofun⟩
    exact List.forall_mem_cons.mpr ⟨hv, hdone⟩
  | .fields done key :: outer =>
    obtain ⟨hroom, hdone, houter⟩ := hframes
    refine ⟨⟨hroom, ?_, houter⟩, nofun⟩
    exact List.forall_mem_cons.mpr ⟨hv, hdone⟩

theorem length_le_of_framesFit (h : FramesFit limit frames) : frames.length ≤ limit := by
  cases frames with
  | nil => exact Nat.zero_le _
  | cons frame outer => exact h.1

theorem fits_beginValue (hframes : FramesFit limit frames) (hflat : token.Flat)
    (h : beginValue limit frames token = some next) : next.Fits limit := by
  have hlength := length_le_of_framesFit hframes
  cases token with
  | scalar v =>
    cases h
    have hv : v.depth = 0 := hflat
    exact fits_deliver hframes (by omega)
  | string s =>
    cases h
    exact fits_deliver hframes (by simp [Value.depth]; omega)
  | openBracket =>
    rw [beginValue] at h
    split at h
    · next hroom =>
      cases h
      exact ⟨⟨hroom, nofun, hframes⟩, nofun⟩
    · cases h
  | openBrace =>
    rw [beginValue] at h
    split at h
    · next hroom =>
      cases h
      exact ⟨⟨hroom, nofun, hframes⟩, nofun⟩
    · cases h
  | _ => cases h

/-- An array is closed where there is room for its items. -/
theorem fits_closeArray {done : List Value} (h : FramesFit limit (.items done :: frames)) :
    (deliver (.array done.reverse) frames).Fits limit := by
  obtain ⟨hroom, hdone, houter⟩ := h
  have hitems : Value.depthItems done.reverse ≤ limit - frames.length - 1 := by
    rw [Value.depthItems_le_iff]
    intro v hv
    have hdepth := hdone v (List.mem_reverse.mp hv)
    omega
  refine fits_deliver houter ?_
  rw [Value.depth]
  omega

theorem fits_closeObject {done : List (String × Value)} {key : String}
    (h : FramesFit limit (.fields done key :: frames)) : (deliver (.object done.reverse) frames).Fits limit := by
  obtain ⟨hroom, hdone, houter⟩ := h
  have hfields : Value.depthFields done.reverse ≤ limit - frames.length - 1 := by
    rw [Value.depthFields_le_iff]
    intro field hf
    have hdepth := hdone field (List.mem_reverse.mp hf)
    omega
  refine fits_deliver houter ?_
  rw [Value.depth]
  omega

/-- One token keeps within the limit. -/
theorem Fits.step (hstate : state.Fits limit) (hflat : token.Flat) (h : state.step limit token = some next) :
    next.Fits limit := by
  obtain ⟨awaited, frames⟩ := state
  obtain ⟨hframes, -⟩ := hstate
  cases awaited with
  | value => exact fits_beginValue hframes hflat h
  | firstItem =>
    cases token with
    | closeBracket => cases h; exact fits_closeArray hframes
    | _ => exact fits_beginValue hframes hflat h
  | moreItems done =>
    cases token with
    | comma => cases h; exact ⟨hframes, nofun⟩
    | closeBracket => cases h; exact fits_closeArray hframes
    | _ => cases h
  | firstKey =>
    cases token with
    | closeBrace => cases h; exact fits_closeObject hframes
    | string key => cases h; exact ⟨hframes, nofun⟩
    | _ => cases h
  | key done =>
    cases token with
    | string key => cases h; exact ⟨hframes, nofun⟩
    | _ => cases h
  | colon done key =>
    cases token with
    | colon => cases h; exact ⟨hframes, nofun⟩
    | _ => cases h
  | moreFields done =>
    cases token with
    | comma => cases h; exact ⟨hframes, nofun⟩
    | closeBrace => cases h; exact fits_closeObject hframes
    | _ => cases h
  | nothing v => cases h

/-- So does a whole run. -/
theorem Fits.run {tokens : List Token} {trailing : Bool} (hstate : state.Fits limit)
    (hflat : ∀ token ∈ tokens, token.Flat) (h : state.run limit tokens = .complete v trailing) : v.depth ≤ limit := by
  fun_induction State.run limit state tokens with
  | case1 state w rest hawaited =>
    cases h
    exact hstate.2 _ hawaited
  | case2 => cases h
  | case3 state token rest next hstep _ ih =>
    obtain ⟨hfirst, hrest⟩ := List.forall_mem_cons.mp hflat
    exact ih (hstate.step hfirst hstep) hrest h
  | case4 => cases h

end State

/-- What is read from a text nests to the limit at most. -/
theorem depth_of_read {limit : Nat} {text : String} {v : Value} {trailing : Bool}
    (h : read limit text = .complete v trailing) : v.depth ≤ limit := by
  have hstart : State.start.Fits limit := ⟨trivial, nofun⟩
  have hflat : ∀ token ∈ tokens text, token.Flat := by
    apply flat_of_mem_scan
    intro token ht
    cases ht
  exact hstart.run hflat h

end SheetGrammar.Json
