import SheetGrammar.Log

/-!
What comes of reading a part of a sheet: a value, the messages on the way and the tests that are asked for. Readings
one after the other put their messages and tests one after the other. A reading is a writer, without a log to read
from, because nothing that reads a sheet asks what was reported before.
-/

namespace SheetGrammar.Sheet

structure Reading (α : Type) where
  value : α
  messages : List Message := []
  tests : List TestCase := []

namespace Reading

instance : Monad Reading where
  pure a := { value := a }
  bind r f :=
    { value := (f r.value).value
      messages := r.messages ++ (f r.value).messages
      tests := r.tests ++ (f r.value).tests }

def report (finding : Finding) (pos : Option Position) : Reading Unit := { value := (), messages := [⟨finding, pos⟩] }

def reportAll (messages : List Message) : Reading Unit := { value := (), messages }

def ask (tests : List TestCase) : Reading Unit := { value := (), tests }

variable {α β : Type}

@[simp] theorem pure_value (a : α) : (pure a : Reading α).value = a := rfl

@[simp] theorem pure_messages (a : α) : (pure a : Reading α).messages = [] := rfl

@[simp] theorem pure_tests (a : α) : (pure a : Reading α).tests = [] := rfl

@[simp] theorem bind_value (r : Reading α) (f : α → Reading β) : (r >>= f).value = (f r.value).value := rfl

@[simp] theorem bind_messages (r : Reading α) (f : α → Reading β) :
    (r >>= f).messages = r.messages ++ (f r.value).messages := rfl

@[simp] theorem bind_tests (r : Reading α) (f : α → Reading β) :
    (r >>= f).tests = r.tests ++ (f r.value).tests := rfl

end Reading

end SheetGrammar.Sheet
