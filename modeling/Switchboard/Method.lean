/-! Method names.

A full name is a namespace and a method joined by an underscore; the first
underscore separates them, so a method may hold further ones. A namespace that can
be redirected is an ASCII letter followed by ASCII letters and digits. -/
namespace Switchboard

structure Method where
  namespaceName : String
  method : String
  deriving DecidableEq, Repr

namespace Method

/-- The full name. -/
def full (m : Method) : String := m.namespaceName ++ "_" ++ m.method

/-- The parts of a full name, when neither is empty. -/
def parse (name : String) : Option Method :=
  let before := name.toList.takeWhile (· ≠ '_')
  match name.toList.dropWhile (· ≠ '_') with
  | [] => none
  | _ :: after =>
    if before.isEmpty || after.isEmpty then none
    else some ⟨String.ofList before, String.ofList after⟩

def isLetter (c : Char) : Bool := ('A' ≤ c && c ≤ 'Z') || ('a' ≤ c && c ≤ 'z')

def isLetterOrDigit (c : Char) : Bool := isLetter c || ('0' ≤ c && c ≤ '9')

/-- Whether calls under the name can be redirected. -/
def isNamespace (name : String) : Bool :=
  match name.toList with
  | [] => false
  | c :: rest => isLetter c && rest.all isLetterOrDigit

end Method
end Switchboard
