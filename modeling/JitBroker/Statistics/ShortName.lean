/-!
# Short names

The name of a method, for a report with little room: the name of its class, a blank and its own
name, in fewer characters than the given budget. If the room is short, the class name loses its
first characters; if the method name takes all of it, the class is left out, and the method name
loses its last characters.
-/

namespace JitBroker

/-- The short name, as characters. -/
def shortNameChars (className method : List Char) (budget : Nat) : List Char :=
  if budget < method.length + 2 then method.take (budget - 1)
  else if budget < className.length + method.length + 2 then
    let keep := budget - method.length - 2
    if keep = 0 then method
    else className.drop (className.length - keep) ++ ' ' :: method
  else className ++ ' ' :: method

/-- The short name of a method. -/
def shortName (className method : String) (budget : Nat) : String :=
  String.ofList (shortNameChars className.toList method.toList budget)

end JitBroker
