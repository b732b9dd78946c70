import Switchboard.Proofs.Text.Affixes
import Switchboard.Redirect.Endpoint

/-! How endpoints are spelt.

An address is a socket path or a host and a port, each with its scheme or without one
(`Endpoint.Spells`); what is spelt in none of these ways is refused (`Endpoint.parse_eq_ok_iff`).
An endpoint is shown with its scheme, which is one of its spellings (`Endpoint.Spells.display`), so
it is read back as it was read (`Endpoint.display_read_back`). -/
namespace Switchboard

/-! ### Numerals -/

namespace Text
variable {s : List Char} {m n : Nat}

/-- The digits of base ten are the ASCII ones. -/
theorem digit?_ten (c : Char) :
    digit? 10 c = if c.isDigit then some (c.toNat - '0'.toNat) else none := by
  have hdigit : c.isDigit = true ↔ '0' ≤ c ∧ c ≤ '9' := by
    simp [Char.isDigit, Char.le_def]
  by_cases h : '0' ≤ c ∧ c ≤ '9'
  · have hval : c.toNat - 48 < 10 := by
      have hle : c.toNat ≤ 57 := Char.le_def.mp h.2
      omega
    simp [digit?, h, hdigit.mpr h, hval]
  · have hno : c.isDigit = false := Bool.eq_false_iff.mpr fun hd => h (hdigit.mp hd)
    -- a letter is worth ten or more
    rw [hno, digit?, if_neg (by simpa using h)]
    split
    · simp
    · split <;> simp

/-- A numeral with one digit more. -/
def shift? (n? : Option Nat) (c : Char) : Option Nat := do return (← n?) * 10 + (← digit? 10 c)

theorem foldl_shift?_none (s : List Char) : s.foldl shift? none = none := by
  induction s with
  | nil => rfl
  | cons c s ih => exact ih

theorem foldl_shift?_eq_some_iff : s.foldl shift? (some m) = some n ↔
    (∀ c ∈ s, c.isDigit = true) ∧ Nat.ofDigitChars 10 s m = n := by
  induction s generalizing m with
  | nil => simp [Nat.ofDigitChars]
  | cons c s ih =>
    rw [List.foldl_cons, List.forall_mem_cons, Nat.ofDigitChars_cons]
    by_cases h : c.isDigit = true
    · have hshift : shift? (some m) c = some (10 * m + (c.toNat - '0'.toNat)) := by
        simp [shift?, digit?_ten, h, Nat.mul_comm]
      rw [hshift, ih, and_iff_right h]
    · have hshift : shift? (some m) c = none := by simp [shift?, digit?_ten, h]
      simp [hshift, foldl_shift?_none, h]

/-- At least one digit, and nothing else. -/
def Digits (s : List Char) : Prop := s ≠ [] ∧ ∀ c ∈ s, c.isDigit = true

theorem numeral?_eq_some_iff : numeral? 10 s = some n ↔ Digits s ∧ Nat.ofDigitChars 10 s 0 = n := by
  have hfold : numeral? 10 s = if s.isEmpty then none else s.foldl shift? (some 0) := rfl
  rw [hfold, Digits]
  split
  · rename_i hempty
    simp [List.isEmpty_iff.mp hempty]
  · rename_i hne
    rw [foldl_shift?_eq_some_iff, and_assoc, and_iff_right (List.isEmpty_iff.not.mp hne)]

end Text

namespace Redirect.Endpoint
open Text
variable {s port address : List Char} {e : Endpoint} {raw : String}

/-! ### Hosts and ports -/

/-- A number of sixteen bits, in decimal digits after one plus sign or none. -/
def IsPort (s : List Char) : Prop :=
  ∃ sign digits, s = sign ++ digits ∧ (sign = [] ∨ sign = ['+']) ∧ Digits digits ∧
    Nat.ofDigitChars 10 digits 0 ≤ 65535

theorem port?_isSome_iff : (port? s).isSome ↔ IsPort s := by
  have hunsigned (n : Nat) : unsigned? s = some n ↔ ∃ sign digits, s = sign ++ digits ∧
      (sign = [] ∨ sign = ['+']) ∧ Digits digits ∧ Nat.ofDigitChars 10 digits 0 = n := by
    constructor
    · intro h
      unfold unsigned? at h
      split at h
      · rename_i digits
        exact ⟨['+'], digits, rfl, .inr rfl, numeral?_eq_some_iff.mp h⟩
      · exact ⟨[], s, rfl, .inl rfl, numeral?_eq_some_iff.mp h⟩
    · rintro ⟨sign, digits, rfl, rfl | rfl, hdigits, hn⟩
      · have hplain : ∀ rest, digits ≠ '+' :: rest := by
          rintro rest rfl
          exact absurd (hdigits.2 '+' (List.mem_cons_self ..)) (by decide)
        rw [List.nil_append, unsigned?]
        · exact numeral?_eq_some_iff.mpr ⟨hdigits, hn⟩
        · exact hplain
      · exact numeral?_eq_some_iff.mpr ⟨hdigits, hn⟩
  rw [port?, Option.isSome_filter, Option.any_eq_true]
  constructor
  · rintro ⟨n, hn, hlt⟩
    obtain ⟨sign, digits, hs, hsign, hdigits, rfl⟩ := (hunsigned n).mp hn
    exact ⟨sign, digits, hs, hsign, hdigits, Nat.le_of_lt_succ (of_decide_eq_true hlt)⟩
  · rintro ⟨sign, digits, hs, hsign, hdigits, hle⟩
    exact ⟨_, (hunsigned _).mpr ⟨sign, digits, hs, hsign, hdigits, rfl⟩,
      decide_eq_true (Nat.lt_succ_of_le hle)⟩

theorem IsPort.no_colon (h : IsPort port) : ':' ∉ port := by
  obtain ⟨sign, digits, rfl, hsign, hdigits, -⟩ := h
  intro hcolon
  rcases List.mem_append.mp hcolon with hc | hc
  · rcases hsign with rfl | rfl
    · cases hc
    · exact absurd hc (by decide)
  · exact absurd (hdigits.2 ':' hc) (by decide)

/-- A host, a colon and a port. -/
def IsHostPort (address : List Char) : Prop :=
  ∃ host port, address = host ++ ':' :: port ∧ host ≠ [] ∧ IsPort port

theorem IsHostPort.ne_nil (h : IsHostPort address) : address ≠ [] := by
  obtain ⟨host, port, rfl, hne, -⟩ := h
  exact List.append_ne_nil_of_left_ne_nil hne _

theorem hostPort?_eq_some_iff :
    hostPort? address = some e ↔ e = .tcp (String.ofList address) ∧ IsHostPort address := by
  constructor
  · intro h
    unfold hostPort? at h
    dsimp only at h
    split at h
    · cases h
    · rename_i c host hdrop
      obtain ⟨hsplit, -⟩ := cut_of_dropWhile hdrop
      split at h
      · cases h
      · rename_i hok
        cases h
        rw [Bool.or_eq_true, not_or, List.isEmpty_iff, Option.isNone_iff_eq_none, ← ne_eq,
          ← ne_eq, Option.ne_none_iff_isSome] at hok
        refine ⟨rfl, host.reverse, _, ?_, by simpa using hok.1, port?_isSome_iff.mp hok.2⟩
        simpa using congrArg List.reverse hsplit
  · rintro ⟨rfl, host, port, rfl, hhost, hport⟩
    have hfree : ':' ∉ port.reverse := fun hc => hport.no_colon (List.mem_reverse.mp hc)
    have hbackwards : (host ++ ':' :: port).reverse = port.reverse ++ ':' :: host.reverse := by simp
    have hsome : (port? port).isNone = false := by
      rw [← Option.not_isSome, port?_isSome_iff.mpr hport, Bool.not_true]
    simp only [hostPort?, hbackwards, takeWhile_cut hfree, dropWhile_cut hfree,
      List.reverse_reverse, hsome]
    simp [hhost]

/-! ### Spellings -/

/-- What holds `://` names a scheme. -/
def HasScheme (s : List Char) : Prop := "://".toList <:+: s

/-- What holds a slash or ends in `.ipc` is a path. -/
def LooksLikePath (s : List Char) : Prop := '/' ∈ s ∨ ".ipc".toList <:+ s

/-- The text spells the endpoint. -/
inductive Spells : List Char → Endpoint → Prop
  | unix {path : List Char} (hne : path ≠ []) :
      Spells ("unix://".toList ++ path) (.ipc (String.ofList path))
  | tcp {address : List Char} (h : IsHostPort address) :
      Spells ("tcp://".toList ++ address) (.tcp (String.ofList address))
  | path {s : List Char} (hs : ¬HasScheme s) (hp : LooksLikePath s) : Spells s (.ipc (String.ofList s))
  | hostPort {s : List Char} (hs : ¬HasScheme s) (hp : ¬LooksLikePath s) (h : IsHostPort s) :
      Spells s (.tcp (String.ofList s))

theorem hasScheme_unix (path : List Char) : HasScheme ("unix://".toList ++ path) :=
  ⟨"unix".toList, path, rfl⟩

theorem hasScheme_tcp (address : List Char) : HasScheme ("tcp://".toList ++ address) :=
  ⟨"tcp".toList, address, rfl⟩

theorem looksLikePath_iff : (s.contains '/' || (after? ".ipc".toList.reverse s.reverse).isSome) =
    true ↔ LooksLikePath s := by
  rw [Bool.or_eq_true, List.contains_iff_mem, after?_isSome_iff, List.reverse_prefix, LooksLikePath]

/-- A text without a scheme has neither of the two that are known. -/
theorem after?_eq_none (hs : ¬HasScheme s) :
    after? "unix://".toList s = none ∧ after? "tcp://".toList s = none := by
  constructor
  · refine Option.eq_none_iff_forall_ne_some.mpr fun path h => hs ?_
    exact after?_eq_some_iff.mp h ▸ hasScheme_unix path
  · refine Option.eq_none_iff_forall_ne_some.mpr fun address h => hs ?_
    exact after?_eq_some_iff.mp h ▸ hasScheme_tcp address

/-- **What is accepted is what spells an endpoint, without the white space around it.** -/
theorem parse_eq_ok_iff : parse raw = .ok e ↔ Spells (trimmed raw.toList) e := by
  unfold parse
  generalize trimmed raw.toList = s
  dsimp only
  constructor
  · intro h
    split at h
    · cases h
    · rename_i path hne hunix
      cases h
      cases after?_eq_some_iff.mp hunix
      exact .unix hne
    · split at h
      · rename_i address htcp
        split at h <;> cases h
        rename_i hhost
        obtain ⟨rfl, haddress⟩ := hostPort?_eq_some_iff.mp hhost
        cases after?_eq_some_iff.mp htcp
        exact .tcp haddress
      · split at h
        · cases h
        · rename_i hscheme
          have hs : ¬HasScheme s := fun hs => hscheme (around?_isSome_iff.mpr hs)
          split at h
          · rename_i hpath
            cases h
            exact .path hs (looksLikePath_iff.mp hpath)
          · rename_i hpath
            split at h <;> cases h
            rename_i hhost
            obtain ⟨rfl, haddress⟩ := hostPort?_eq_some_iff.mp hhost
            exact .hostPort hs (fun hp => hpath (looksLikePath_iff.mpr hp)) haddress
  · intro h
    cases h with
    | @unix path hne =>
      obtain ⟨c, rest, rfl⟩ := List.exists_cons_of_ne_nil hne
      rw [after?_eq_some_iff.mpr rfl]
    | @tcp address hhost =>
      have hunix : after? "unix://".toList ("tcp://".toList ++ address) = none := rfl
      rw [hunix, after?_eq_some_iff.mpr rfl]
      dsimp only
      rw [hostPort?_eq_some_iff.mpr ⟨rfl, hhost⟩]
    | path hs hp =>
      rw [(after?_eq_none hs).1, (after?_eq_none hs).2]
      dsimp only
      rw [if_neg fun hscheme => hs (around?_isSome_iff.mp hscheme), if_pos (looksLikePath_iff.mpr hp)]
    | hostPort hs hp hhost =>
      rw [(after?_eq_none hs).1, (after?_eq_none hs).2]
      dsimp only
      rw [if_neg fun hscheme => hs (around?_isSome_iff.mp hscheme),
        if_neg fun hpath => hp (looksLikePath_iff.mp hpath), hostPort?_eq_some_iff.mpr ⟨rfl, hhost⟩]

/-- White space around an address makes no difference, whether it is accepted or refused. -/
theorem parse_around {before after : String} (hb : Spaces before.toList) (ha : Spaces after.toList) :
    parse (before ++ raw ++ after) = parse raw := by
  have htrimmed : trimmed (before ++ raw ++ after).toList = trimmed raw.toList := by
    rw [String.toList_append, String.toList_append, List.append_assoc]
    exact trimmed_around hb ha
  unfold parse
  rw [htrimmed]

/-! ### Displays -/

theorem display_ipc (path : List Char) :
    (ipc (String.ofList path)).display.toList = "unix://".toList ++ path := by
  simp [display]

theorem display_tcp (address : List Char) :
    (tcp (String.ofList address)).display.toList = "tcp://".toList ++ address := by
  simp [display]

theorem LooksLikePath.ne_nil (h : LooksLikePath s) : s ≠ [] := by
  rintro rfl
  rcases h with hslash | hipc
  · cases hslash
  · exact absurd (List.suffix_nil.mp hipc) (by decide)

/-- A spelling ends with the path, or with the host and the port. -/
theorem Spells.ending (h : Spells s e) : ∃ rest, rest <:+ s ∧ rest ≠ [] ∧
    (e = .ipc (String.ofList rest) ∨ e = .tcp (String.ofList rest) ∧ IsHostPort rest) := by
  cases h with
  | unix hne => exact ⟨_, List.suffix_append .., hne, .inl rfl⟩
  | tcp hhost => exact ⟨_, List.suffix_append .., hhost.ne_nil, .inr ⟨rfl, hhost⟩⟩
  | path hs hp => exact ⟨s, List.suffix_refl s, hp.ne_nil, .inl rfl⟩
  | hostPort hs hp hhost => exact ⟨s, List.suffix_refl s, hhost.ne_nil, .inr ⟨rfl, hhost⟩⟩

/-- **What an endpoint is shown as spells it.** -/
theorem Spells.display (h : Spells s e) : Spells e.display.toList e := by
  obtain ⟨rest, -, hne, rfl | ⟨rfl, hhost⟩⟩ := h.ending
  · rw [display_ipc]
    exact .unix hne
  · rw [display_tcp]
    exact .tcp hhost

/-- An endpoint that was spelt without white space around it is shown without it. -/
theorem Spells.display_tight (h : Spells s e) (hs : Tight s) : Tight e.display.toList := by
  obtain ⟨rest, hrest, hne, rfl | ⟨rfl, -⟩⟩ := h.ending
  · rw [display_ipc]
    exact hs.behind hrest hne (tight_of_spaceless (by decide)) (by decide)
  · rw [display_tcp]
    exact hs.behind hrest hne (tight_of_spaceless (by decide)) (by decide)

theorem parse_display (h : parse raw = .ok e) : parse e.display = .ok e := by
  have hspells := parse_eq_ok_iff.mp h
  rw [parse_eq_ok_iff, (hspells.display_tight (trimmed_tight _)).trimmed_eq]
  exact hspells.display

/-- **An endpoint is read back from what it is shown as.** What is accepted is what spells an
endpoint, white space around it apart. The endpoint that is read is read again from what it is shown
as, so two accepted spellings are shown alike exactly when they are read as the same endpoint; an
address is a host that is not empty, a colon and a port, and a path is not empty. White space around
a spelling makes no difference, whether it is accepted or refused. -/
theorem display_read_back (raw : String) :
    (∀ e, parse raw = .ok e ↔ Spells (trimmed raw.toList) e) ∧
    (∀ e, parse raw = .ok e →
      parse e.display = .ok e ∧
      (∀ raw' e', parse raw' = .ok e' → (e.display = e'.display ↔ e = e')) ∧
      (∀ address, e = .tcp address → ∃ host port, address = host ++ ":" ++ port ∧ host ≠ "" ∧
        IsPort port.toList) ∧
      ∀ path, e = .ipc path → path ≠ "") ∧
    ∀ before after : String, Spaces before.toList → Spaces after.toList →
      parse (before ++ raw ++ after) = parse raw := by
  refine ⟨fun e => parse_eq_ok_iff, fun e h => ⟨parse_display h, fun raw' e' h' => ?_, ?_, ?_⟩,
    fun before after hb ha => parse_around hb ha⟩
  · refine ⟨fun hsame => ?_, fun hsame => congrArg display hsame⟩
    have hread := parse_display h
    rw [hsame, parse_display h'] at hread
    exact (Except.ok.inj hread).symm
  · rintro address rfl
    obtain ⟨rest, -, -, hipc | ⟨htcp, host, port, rfl, hhost, hport⟩⟩ := (parse_eq_ok_iff.mp h).ending
    · cases hipc
    · cases htcp
      refine ⟨String.ofList host, String.ofList port, ?_, ?_, by rwa [String.toList_ofList]⟩
      · rw [← String.toList_inj]
        simp
      · simpa using hhost
  · rintro path rfl
    obtain ⟨rest, -, hne, hipc | ⟨htcp, -⟩⟩ := (parse_eq_ok_iff.mp h).ending
    · cases hipc
      simpa using hne
    · cases htcp

/-- A host that holds a colon, and a port with a plus sign and a zero. -/
theorem colons_read_back :
    parse "\u3000a:b:+08545 " = .ok (.tcp "a:b:+08545") ∧
    parse "tcp://a:b:+08545" = .ok (.tcp "a:b:+08545") ∧
    ∃ host port, "a:b:+08545" = host ++ ":" ++ port ∧ host ≠ "" ∧ IsPort port.toList := by
  have hread : parse "\u3000a:b:+08545 " = .ok (.tcp "a:b:+08545") := by rfl
  obtain ⟨hshown, -, haddress, -⟩ := (display_read_back "\u3000a:b:+08545 ").2.1 _ hread
  exact ⟨hread, hshown, haddress _ rfl⟩

end Redirect.Endpoint
end Switchboard
