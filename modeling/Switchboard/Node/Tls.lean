import Switchboard.Node.Config

/-! Reading a certificate chain and its key from files.

Both files are read before either is looked at, and the key is looked at first. -/
namespace Switchboard

/-- What a file in PEM form holds. -/
structure Pem where
  certificates : Nat
  keys : Nat
  deriving DecidableEq, Repr

/-- What the text of such a file says it holds. -/
def Pem.ofText (text : String) : Pem :=
  let headings := (text.splitOn "\n").map fun l => l.trimAscii.toString
  ⟨headings.countP (· == "-----BEGIN CERTIFICATE-----"),
    headings.countP fun l => l.startsWith "-----BEGIN " && l.endsWith "PRIVATE KEY-----"⟩

namespace TlsConfig

def failure (reason : String) : String := "failed to load TLS certificates: " ++ reason

/-- Why the material cannot be used, when files are read by `file?`. -/
def complaint? (file? : String → Except String Pem) (t : TlsConfig) : Option String :=
  let unreadable (path reason : String) : String :=
    failure ("failed to read from file \x60" ++ path ++ "\x60: " ++ reason)
  match file? t.certificate with
  | .error reason => some (unreadable t.certificate reason)
  | .ok chain =>
    match file? t.key with
    | .error reason => some (unreadable t.key reason)
    | .ok key =>
      if key.keys ≠ 1 then some (failure "private key format not supported")
      else if chain.certificates = 0 then some (failure "peer sent no certificates")
      else none

end TlsConfig
end Switchboard
