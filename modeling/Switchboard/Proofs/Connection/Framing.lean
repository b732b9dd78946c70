import Mathlib.Data.List.TakeWhile
import Switchboard.Redirect.Frames

/-! The frames of a stream, however it is cut into reads.

A stream is cut at its line feeds (`linesOf`), and its frames are what the lines say before the
first that is too long or is not UTF-8 (`frames`). `incoming` takes the first of them off
(`incoming_takes`), and what it takes does not depend on what arrives later
(`incoming_frame_later`, `incoming_spoiled_later`). A reader does not search its bytes anew
whenever some arrive, it goes on from where it left off (`Decoder`); what it gives out is the
frames of the stream, whatever the reads (`Decoder.Searched.run_eq`). -/
namespace Switchboard.Redirect

/-! ### The lines of a stream -/

/-- The lines that have their line feed. -/
def wholeLines (bytes : List UInt8) : List (List UInt8) := (bytes.splitOn lineFeed).dropLast

/-- What stands behind the last line feed. -/
def lastPart (bytes : List UInt8) : List UInt8 := (bytes.splitOn lineFeed).getLastD []

/-- The lines of a stream. When it has ended, what stands behind the last line feed is one of them,
unless it is empty or a lone carriage return. -/
def linesOf (ended : Bool) (bytes : List UInt8) : List (List UInt8) :=
  if ended = true ∧ lastPart bytes ≠ [] ∧ lastPart bytes ≠ [carriageReturn] then
    wholeLines bytes ++ [lastPart bytes]
  else wholeLines bytes

/-- What a line says, unless it is too long or is not UTF-8. -/
def textOf (longest : Nat) (line : List UInt8) : Option (List Char) :=
  if longest < line.length then none
  else (String.fromUTF8? ⟨(withoutReturn line).toArray⟩).map String.toList

/-- What the lines say up to the first that says nothing. -/
def frames (longest : Nat) (ended : Bool) (bytes : List UInt8) : List (List Char) :=
  ((linesOf ended bytes).takeWhile fun line => (textOf longest line).isSome).filterMap
    (textOf longest)

/-- One of the lines says nothing, or what stands behind the last line feed is too long already. -/
def Spoiled (longest : Nat) (bytes : List UInt8) : Prop :=
  (∃ line ∈ wholeLines bytes, textOf longest line = none) ∨ longest < (lastPart bytes).length

variable {longest : Nat} {ended : Bool} {bytes line rest more : List UInt8} {text : List Char}

/-- A stream begins with a whole line, or has no line feed. -/
theorem cut_cases (bytes : List UInt8) :
    (∃ line rest, lineFeed ∉ line ∧ bytes = line ++ lineFeed :: rest) ∨ lineFeed ∉ bytes := by
  by_cases h : lineFeed ∈ bytes
  · obtain ⟨line, rest, hb, hline⟩ := List.eq_append_cons_of_mem h
    exact .inl ⟨line, rest, hline, hb⟩
  · exact .inr h

/-! A line in front is cut off. -/

theorem splitOn_line (h : lineFeed ∉ line) (rest : List UInt8) :
    (line ++ lineFeed :: rest).splitOn lineFeed = line :: rest.splitOn lineFeed := by
  rw [List.splitOn_append_cons_self, List.splitOn_eq_singleton h, List.singleton_append]

theorem wholeLines_line (h : lineFeed ∉ line) (rest : List UInt8) :
    wholeLines (line ++ lineFeed :: rest) = line :: wholeLines rest := by
  rw [wholeLines, splitOn_line h, List.dropLast_cons_of_ne_nil (List.splitOn_ne_nil _ _),
    wholeLines]

theorem lastPart_line (h : lineFeed ∉ line) (rest : List UInt8) :
    lastPart (line ++ lineFeed :: rest) = lastPart rest := by
  rw [lastPart, splitOn_line h, lastPart, List.getLastD_cons]
  obtain ⟨a, l, ha⟩ := List.exists_cons_of_ne_nil (List.splitOn_ne_nil lineFeed rest)
  rw [ha, List.getLastD_cons, List.getLastD_cons]

theorem linesOf_line (h : lineFeed ∉ line) (rest : List UInt8) :
    linesOf ended (line ++ lineFeed :: rest) = line :: linesOf ended rest := by
  rw [linesOf, lastPart_line h, wholeLines_line h, linesOf]
  split <;> rfl

theorem frames_line (h : lineFeed ∉ line) (rest : List UInt8) :
    frames longest ended (line ++ lineFeed :: rest) =
      (textOf longest line).elim [] (· :: frames longest ended rest) := by
  rw [frames, linesOf_line h, List.takeWhile_cons]
  cases ht : textOf longest line with
  | none => rfl
  | some text =>
    rw [Option.isSome_some, if_pos rfl, List.filterMap_cons_some ht]
    rfl

theorem spoiled_line (h : lineFeed ∉ line) (rest : List UInt8) :
    Spoiled longest (line ++ lineFeed :: rest) ↔
      textOf longest line = none ∨ Spoiled longest rest := by
  simp only [Spoiled, wholeLines_line h, lastPart_line h, List.mem_cons, or_and_right,
    exists_or, exists_eq_left, or_assoc]

/-! Where there is no line feed, all is behind the last one. -/

theorem wholeLines_rest (h : lineFeed ∉ bytes) : wholeLines bytes = [] := by
  rw [wholeLines, List.splitOn_eq_singleton h, List.dropLast_singleton]

theorem lastPart_rest (h : lineFeed ∉ bytes) : lastPart bytes = bytes := by
  rw [lastPart, List.splitOn_eq_singleton h, List.getLastD_cons, List.getLastD_nil]

theorem frames_rest (h : lineFeed ∉ bytes) :
    frames longest ended bytes =
      if ended = true ∧ bytes ≠ [] ∧ bytes ≠ [carriageReturn] then (textOf longest bytes).toList
      else [] := by
  rw [frames, linesOf, lastPart_rest h, wholeLines_rest h]
  split
  · rw [List.nil_append, List.takeWhile_cons]
    cases ht : textOf longest bytes with
    | none => rfl
    | some text =>
      rw [Option.isSome_some, if_pos rfl, List.filterMap_cons_some ht]
      rfl
  · rfl

theorem spoiled_rest (h : lineFeed ∉ bytes) : Spoiled longest bytes ↔ longest < bytes.length := by
  simp [Spoiled, wholeLines_rest h, lastPart_rest h]

/-! ### What is taken off -/

theorem textOf_long (h : longest < line.length) : textOf longest line = none := if_pos h

theorem frameOf_eq (h : ¬longest < line.length) (rest : List UInt8) :
    frameOf line rest = (textOf longest line).elim .spoiled (.frame · rest) := by
  rw [frameOf, textOf, if_neg h]
  cases String.fromUTF8? ⟨(withoutReturn line).toArray⟩ <;> rfl

/-- No byte of it is a line feed. -/
theorem ne_lineFeed (h : lineFeed ∉ line) : ∀ b ∈ line, decide (b ≠ lineFeed) = true :=
  fun _ hb => decide_eq_true fun he => h (he ▸ hb)

theorem incoming_line (h : lineFeed ∉ line) (rest : List UInt8) :
    incoming longest ended (line ++ lineFeed :: rest) =
      (textOf longest line).elim .spoiled (.frame · rest) := by
  have htake : (line ++ lineFeed :: rest).takeWhile (· ≠ lineFeed) = line := by
    rw [List.takeWhile_append_of_pos (ne_lineFeed h), List.takeWhile_cons_of_neg (by simp),
      List.append_nil]
  have hdrop : (line ++ lineFeed :: rest).dropWhile (· ≠ lineFeed) = lineFeed :: rest := by
    rw [List.dropWhile_append_of_pos (ne_lineFeed h), List.dropWhile_cons_of_neg (by simp)]
  simp only [incoming, htake, hdrop]
  split
  · rw [textOf_long ‹_›]
    rfl
  · exact frameOf_eq ‹_› rest

theorem incoming_rest (h : lineFeed ∉ bytes) :
    incoming longest ended bytes =
      if longest < bytes.length then .spoiled
      else if !ended then .more
      else if bytes = [] ∨ bytes = [carriageReturn] then .finished
      else frameOf bytes [] := by
  have htake : bytes.takeWhile (· ≠ lineFeed) = bytes :=
    List.takeWhile_eq_self_iff.mpr (ne_lineFeed h)
  have hdrop : bytes.dropWhile (· ≠ lineFeed) = [] :=
    List.dropWhile_eq_nil_iff.mpr (ne_lineFeed h)
  simp only [incoming, htake, hdrop]

/-- What is taken off a stream, and what is left of it. -/
inductive Takes (longest : Nat) (ended : Bool) (bytes : List UInt8) : Incoming → Prop
  | frame {text : List Char} {rest : List UInt8}
      (hf : frames longest ended bytes = text :: frames longest ended rest)
      (hs : Spoiled longest bytes ↔ Spoiled longest rest) :
      Takes longest ended bytes (.frame text rest)
  | spoiled (hf : frames longest ended bytes = []) (hs : ended = true ∨ Spoiled longest bytes) :
      Takes longest ended bytes .spoiled
  | more (hf : frames longest ended bytes = []) (he : ended = false)
      (hs : ¬Spoiled longest bytes) : Takes longest ended bytes .more
  | finished (hf : frames longest ended bytes = []) (he : ended = true) :
      Takes longest ended bytes .finished

theorem takes_line (h : lineFeed ∉ line) (rest : List UInt8) :
    Takes longest ended (line ++ lineFeed :: rest)
      ((textOf longest line).elim .spoiled (.frame · rest)) := by
  have hf : frames longest ended (line ++ lineFeed :: rest) = _ := frames_line h rest
  have hs : Spoiled longest (line ++ lineFeed :: rest) ↔ _ := spoiled_line h rest
  cases ht : textOf longest line with
  | none =>
    rw [ht] at hf
    exact .spoiled hf (.inr (hs.mpr (.inl ht)))
  | some text =>
    rw [ht] at hf
    exact .frame hf (hs.trans (by simp [ht]))

/-- **What `incoming` takes off is the first frame of the stream, if there is one.** -/
theorem incoming_takes (longest : Nat) (ended : Bool) (bytes : List UInt8) :
    Takes longest ended bytes (incoming longest ended bytes) := by
  obtain ⟨line, rest, h, rfl⟩ | h := cut_cases bytes
  · rw [incoming_line h]
    exact takes_line h rest
  have hf : frames longest ended bytes = _ := frames_rest h
  have hs : Spoiled longest bytes ↔ _ := spoiled_rest h
  rw [incoming_rest h]
  split
  · rename_i hlong
    refine .spoiled (hf.trans ?_) (.inr (hs.mpr hlong))
    rw [textOf_long hlong]
    exact ite_self _
  rename_i hshort
  split
  · rename_i he
    have he : ended = false := by simpa using he
    exact .more (hf.trans (if_neg (by simp [he]))) he (mt hs.mp hshort)
  rename_i he
  have he : ended = true := by simpa using he
  split
  · rename_i hnone
    exact .finished (hf.trans (if_neg fun ⟨_, h₁, h₂⟩ => hnone.elim h₁ h₂)) he
  · rename_i hsome
    rw [if_pos ⟨he, not_or.mp hsome⟩] at hf
    rw [frameOf_eq hshort]
    cases ht : textOf longest bytes with
    | none =>
      rw [ht] at hf
      exact .spoiled hf (.inl he)
    | some text =>
      rw [ht] at hf
      -- nothing is left behind the last line
      refine .frame (hf.trans ?_) ?_
      · rw [frames_rest (List.not_mem_nil), if_neg (by simp)]
        rfl
      · rw [hs, spoiled_rest (List.not_mem_nil)]
        exact iff_of_false hshort (Nat.not_lt_zero _)

/-! ### What arrives later -/

/-- **A frame that is there is the same when more has arrived.** -/
theorem incoming_frame_later (h : incoming longest false bytes = .frame text rest)
    (more : List UInt8) (ended : Bool) :
    incoming longest ended (bytes ++ more) = .frame text (rest ++ more) := by
  obtain ⟨line, rest', hline, rfl⟩ | hnone := cut_cases bytes
  · rw [incoming_line hline] at h
    rw [List.append_assoc, List.cons_append, incoming_line hline]
    cases ht : textOf longest line with
    | none =>
      rw [ht] at h
      cases h
    | some text =>
      rw [ht] at h
      cases h
      rfl
  · rw [incoming_rest hnone] at h
    split at h <;> cases h

/-- **A frame that cannot be read stays so when more has arrived.** -/
theorem incoming_spoiled_later (h : incoming longest false bytes = .spoiled)
    (more : List UInt8) (ended : Bool) :
    incoming longest ended (bytes ++ more) = .spoiled := by
  obtain ⟨line, rest', hline, rfl⟩ | hnone := cut_cases bytes
  · rw [incoming_line hline] at h
    rw [List.append_assoc, List.cons_append, incoming_line hline]
    cases ht : textOf longest line with
    | none => rfl
    | some text =>
      rw [ht] at h
      cases h
  · rw [incoming_rest hnone] at h
    split at h
    · rename_i hlong
      -- whatever follows, the line is no shorter than this
      rw [incoming, List.takeWhile_append_of_pos (ne_lineFeed hnone), if_pos]
      rw [List.length_append]
      exact Nat.lt_add_right _ hlong
    · cases h

/-! ### Reads -/

/-- What is kept from one read to the next: the bytes that have not been given out, and how many
of them have been searched for a line feed. -/
structure Decoder where
  buffer : List UInt8 := []
  searched : Nat := 0

namespace Decoder

variable {d d' : Decoder}

/-- How far the bytes are searched: one byte beyond the longest frame. -/
def window (longest : Nat) (d : Decoder) : Nat := min (longest + 1) d.buffer.length

/-- The next line feed, looked for from where the last search ended. -/
def lineFeed? (longest : Nat) (d : Decoder) : Option Nat :=
  (((d.buffer.take (d.window longest)).drop d.searched).findIdx? (· = lineFeed)).map
    (d.searched + ·)

/-- One look at the bytes. -/
def next (longest : Nat) (ended : Bool) (d : Decoder) : Incoming :=
  match d.lineFeed? longest with
  | some i => frameOf (d.buffer.take i) (d.buffer.drop (i + 1))
  | none =>
    if longest < d.buffer.length then .spoiled
    else if !ended then .more
    else if d.buffer = [] ∨ d.buffer = [carriageReturn] then .finished
    else frameOf d.buffer []

/-- What has been searched holds no line feed. -/
structure Searched (d : Decoder) : Prop where
  within : d.searched ≤ d.buffer.length
  noFeed : lineFeed ∉ d.buffer.take d.searched

theorem searched_anew (bytes : List UInt8) : Searched ⟨bytes, 0⟩ where
  within := Nat.zero_le _
  noFeed := List.not_mem_nil

theorem Searched.append (h : d.Searched) (more : List UInt8) :
    Searched { d with buffer := d.buffer ++ more } where
  within := by
    have := h.within
    simp only [List.length_append]
    omega
  noFeed := by
    rw [List.take_append_of_le_length h.within]
    exact h.noFeed

theorem lineFeed?_eq_none (h : lineFeed ∉ d.buffer.take (d.window longest)) :
    d.lineFeed? longest = none := by
  rw [lineFeed?, Option.map_eq_none_iff, List.findIdx?_eq_none_iff]
  intro b hb
  exact decide_eq_false fun he => h (he ▸ List.mem_of_mem_drop hb)

/-- The next line feed is found behind what has been searched, if it is not too far off. -/
theorem Searched.lineFeed?_line (h : d.Searched) (hline : lineFeed ∉ line)
    (hb : d.buffer = line ++ lineFeed :: rest) (hshort : ¬longest < line.length) :
    d.lineFeed? longest = some line.length := by
  have hsearched : d.searched ≤ line.length := Nat.le_of_not_lt fun hlt => by
    refine h.noFeed ?_
    rw [hb, List.take_append, List.mem_append, show d.searched - line.length =
      d.searched - line.length - 1 + 1 by omega, List.take_succ_cons]
    exact .inr (List.mem_cons_self ..)
  have hwindow : d.window longest - line.length = d.window longest - line.length - 1 + 1 := by
    have hlength := congrArg List.length hb
    rw [List.length_append, List.length_cons] at hlength
    simp only [window]
    omega
  have hskip : (line.drop d.searched).findIdx? (· = lineFeed) = none := by
    rw [List.findIdx?_eq_none_iff]
    exact fun b hb => decide_eq_false fun he => hline (he ▸ List.mem_of_mem_drop hb)
  rw [lineFeed?, hb, List.take_append, hwindow, List.take_succ_cons,
    List.take_of_length_le (by omega), List.drop_append_of_le_length hsearched,
    List.findIdx?_append, hskip, List.findIdx?_cons]
  simp only [decide_true, if_true, Option.none_or, Option.map_some, List.length_drop,
    Option.some.injEq]
  omega

/-- **Going on from where the last search ended, the decoder sees what `incoming` sees.** -/
theorem Searched.next_eq (h : d.Searched) :
    d.next longest ended = incoming longest ended d.buffer := by
  obtain ⟨line, rest, hline, hb⟩ | hnone := cut_cases d.buffer
  · by_cases hshort : longest < line.length
    · have hwindow : d.window longest ≤ line.length := by
        simp only [window]
        omega
      have hfar : lineFeed ∉ d.buffer.take (d.window longest) := by
        rw [hb, List.take_append_of_le_length hwindow]
        exact fun hmem => hline (List.mem_of_mem_take hmem)
      have hlong : longest < d.buffer.length := by
        rw [hb, List.length_append]
        omega
      simp only [next, lineFeed?_eq_none hfar, if_pos hlong]
      rw [hb, incoming_line hline, textOf_long hshort]
      rfl
    · simp only [next, h.lineFeed?_line hline hb hshort]
      rw [hb, incoming_line hline, List.take_left, ← List.drop_drop, List.drop_left,
        ← frameOf_eq hshort]
      rfl
  · have hfar : lineFeed ∉ d.buffer.take (d.window longest) := fun hmem =>
      hnone (List.mem_of_mem_take hmem)
    simp only [next, lineFeed?_eq_none hfar, incoming_rest hnone]

theorem lineFeed?_lt {i : Nat} (h : d.lineFeed? longest = some i) : i < d.buffer.length := by
  obtain ⟨j, hj, rfl⟩ := Option.map_eq_some_iff.mp h
  obtain ⟨hlt, -⟩ := List.findIdx?_eq_some_iff_getElem.mp hj
  rw [List.length_drop, List.length_take] at hlt
  omega

theorem frameOf_rest {rest' : List UInt8} (h : frameOf line rest = .frame text rest') :
    rest' = rest := by
  unfold frameOf at h
  split at h <;> cases h
  rfl

/-- Every frame takes bytes. -/
theorem next_shorter (h : d.next longest ended = .frame text rest) :
    rest.length < d.buffer.length := by
  unfold next at h
  split at h
  · rename_i i hi
    rw [frameOf_rest h, List.length_drop]
    have := lineFeed?_lt hi
    omega
  split at h
  · cases h
  split at h
  · cases h
  split at h
  · cases h
  · rename_i hsome
    rw [frameOf_rest h]
    exact List.length_pos_iff.mpr fun he => hsome (.inl he)

/-- Gives out the frames there are. There is no decoder any more when there will be no frame any
more. -/
def readOut (longest : Nat) (ended : Bool) (d : Decoder) : List (List Char) × Option Decoder :=
  match _h : d.next longest ended with
  | .frame text rest =>
    let (texts, d?) := readOut longest ended ⟨rest, 0⟩
    (text :: texts, d?)
  | .more => ([], some ⟨d.buffer, d.window longest⟩)
  | .spoiled => ([], none)
  | .finished => ([], none)
termination_by d.buffer.length
decreasing_by exact next_shorter _h

/-- Gives out the frames of these reads, and after the last of them what is left. -/
def run (longest : Nat) (ended : Bool) (d : Decoder) :
    (reads : List (List UInt8)) → List (List Char)
  | [] => (d.readOut longest ended).1
  | bytes :: reads =>
    match readOut longest false { d with buffer := d.buffer ++ bytes } with
    | (texts, none) => texts
    | (texts, some d) => texts ++ d.run longest ended reads

theorem Searched.window (h : incoming longest false d.buffer = .more) :
    Searched ⟨d.buffer, d.window longest⟩ where
  within := Nat.min_le_right ..
  noFeed hmem := by
    obtain ⟨line, rest, hline, hb⟩ | hnone := cut_cases d.buffer
    · rw [hb, incoming_line hline] at h
      cases ht : textOf longest line <;> rw [ht] at h <;> cases h
    · exact hnone (List.mem_of_mem_take hmem)

theorem Searched.readOut_now (h : d.Searched) :
    (d.readOut longest ended).1 = frames longest ended d.buffer := by
  have ht := incoming_takes longest ended d.buffer
  rw [← h.next_eq] at ht
  fun_induction readOut longest ended d with
  | case1 d text rest hn texts d? hd ih =>
    rw [hn] at ht
    cases ht with
    | frame hf =>
      have hanew := searched_anew rest
      have ht := incoming_takes longest ended rest
      rw [hf, ← ih hanew (hanew.next_eq ▸ ht), hd]
  | case2 d hn =>
    rw [hn] at ht
    cases ht with
    | more hf => exact hf.symm
  | case3 d hn =>
    rw [hn] at ht
    cases ht with
    | spoiled hf => exact hf.symm
  | case4 d hn =>
    rw [hn] at ht
    cases ht with
    | finished hf => exact hf.symm

/-- What is given out are the first frames, whatever follows. The decoder that is left gives out
the others; if none is left there are no others. -/
theorem Searched.readOut_later (h : d.Searched) (longest : Nat) :
    (∀ d', (d.readOut longest false).2 = some d' → d'.Searched) ∧
      ∀ ended more, frames longest ended (d.buffer ++ more) = (d.readOut longest false).1 ++
        (d.readOut longest false).2.elim [] fun d' => frames longest ended (d'.buffer ++ more) := by
  generalize hfalse : false = e
  fun_induction readOut longest e d with
  | case1 d text rest hn texts d? hd ih =>
    subst hfalse
    rw [h.next_eq] at hn
    have hrest := ih (searched_anew rest)
    rw [hd] at hrest
    refine ⟨hrest.1, fun ended more => ?_⟩
    have ht := incoming_takes longest ended (d.buffer ++ more)
    rw [incoming_frame_later hn] at ht
    cases ht with
    | frame hf => rw [hf, hrest.2, List.cons_append]
  | case2 d hn =>
    subst hfalse
    rw [h.next_eq] at hn
    refine ⟨fun d' hd' => ?_, fun ended more => rfl⟩
    cases hd'
    exact .window hn
  | case3 d hn =>
    subst hfalse
    rw [h.next_eq] at hn
    refine ⟨nofun, fun ended more => ?_⟩
    have ht := incoming_takes longest ended (d.buffer ++ more)
    rw [incoming_spoiled_later hn] at ht
    cases ht with
    | spoiled hf => exact hf
  | case4 d hn =>
    subst hfalse
    rw [h.next_eq] at hn
    have ht := incoming_takes longest false d.buffer
    rw [hn] at ht
    cases ht with
    | finished _ he => cases he

/-- **However the stream is cut into reads, the decoder gives out its frames.** -/
theorem Searched.run_eq (h : d.Searched) (reads : List (List UInt8)) :
    d.run longest ended reads = frames longest ended (d.buffer ++ reads.flatten) := by
  induction reads generalizing d with
  | nil => rw [run, h.readOut_now, List.flatten_nil, List.append_nil]
  | cons bytes reads ih =>
    obtain ⟨hleft, hfirst⟩ := (h.append bytes).readOut_later longest
    rw [run, List.flatten_cons, ← List.append_assoc, hfirst]
    split
    · rename_i texts hd
      rw [hd, Option.elim_none, List.append_nil]
    · rename_i texts d' hd
      rw [hd] at hleft ⊢
      rw [Option.elim_some, ih (hleft d' rfl)]

/-- A carriage return and its line feed come in two reads, and the last line has none. -/
example : ({} : Decoder).run 8 true [[97, 13], [10, 98]] = [['a'], ['b']] := by cbv

end Decoder
end Switchboard.Redirect
