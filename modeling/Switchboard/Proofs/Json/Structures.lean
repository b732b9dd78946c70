import Switchboard.Proofs.Json.Readers

/-! Structures, as they may be laid out.

A structure is read from an object whose members the plan notes one after the other
(`Plan.Reads`) or from a list whose elements it notes in its own order (`Plan.Fills`), and from
nothing else. Where the readers of the members are settled, so is that of the structure
(`Plan.reader_settled`), and it comes to what was noted (`Plan.reader_takes_iff`). -/
namespace Switchboard.Json.Plan

variable {δ α : Type} {P : Plan δ α} {width : Char → Nat}

/-! ### One member -/

/-- What the plan makes of a member of an object: it is unknown and passed over, or known, not
there before, and noted. -/
inductive Notes (P : Plan δ α) (d : δ) (f : Field) : δ → Prop
  | skipped {name : String} (hn : f.Named name)
      (hm : P.members.find? (fun m => m.name == name) = none) : Notes P d f d
  | noted {name : String} {m : Member δ} {note : δ → δ} (hn : f.Named name)
      (hm : P.members.find? (fun m => m.name == name) = some m) (hs : m.seen d = false)
      (hv : m.value.Takes f.value.text note) : Notes P d f (note d)

/-- The members of an object take the draft `d` to the draft `d'`. -/
inductive Reads (P : Plan δ α) : δ → List Field → δ → Prop
  | nil {d : δ} : Reads P d [] d
  | cons {d d' d'' : δ} {f : Field} {fields : List Field} (h : P.Notes d f d')
      (hr : Reads P d' fields d'') : Reads P d (f :: fields) d''

/-- The elements of a list are noted as the members in their order, as far as it goes. -/
inductive Fills : List (Member δ) → δ → List Raw → δ → Prop
  | nil {ms : List (Member δ)} {d : δ} : Fills ms d [] d
  | cons {m : Member δ} {ms : List (Member δ)} {d d' : δ} {t : Raw} {items : List Raw}
      {note : δ → δ} (hv : m.value.Takes t note) (hr : Fills ms (note d) items d') :
      Fills (m :: ms) d (t :: items) d'

/-- Every text of a member is taken or refused. -/
def Settled (P : Plan δ α) : Prop := ∀ m ∈ P.members, m.value.Settled

theorem colon_field {f : Field} (u : List Char) : colon (f.gap ++ ':' :: u) = .ok u := by
  simp only [colon, skipBlank_append f.gap_blank (show isBlank ':' = false by decide)]

section Member
variable {d d' : δ} {f : Field} {u : List Char}

/-- A member that the plan makes something of is read, up to the blanks behind it. -/
theorem Notes.read (h : P.Notes d f d') (ht : f.value.text.IsText)
    (hu : Stops (f.value.after ++ u)) :
    ∃ name t, readText Char.utf8Size (spell f.name ++ (f.gap ++ ':' :: (f.value.chars ++ u))) =
        .ok (name, t) ∧
      P.readMember Char.utf8Size d name t = .ok (d', f.value.after ++ u) := by
  cases h with
  | @skipped name hn hm =>
    refine ⟨name, _, hn.readText _, ?_⟩
    have hskim := ht.skim_padded f.value.before_blank hu
    simp only [readMember, hm, colon_field, Padded.chars, List.append_assoc, hskim]
  | @noted name m note hn hm hs hv =>
    refine ⟨name, _, hn.readText _, ?_⟩
    have hrun := hv f.value.before_blank hu
    simp only [readMember, hm, hs, colon_field, Padded.chars, List.append_assoc, hrun,
      Bool.false_eq_true, if_false]

/-- A member that the plan makes nothing of is not read. -/
theorem readMember_refused (hP : P.Settled) (hno : ∀ d', ¬P.Notes d f d')
    (ht : f.value.text.IsText) (hu : Stops (f.value.after ++ u)) {name : String} {t : List Char}
    (hn : readText Char.utf8Size (spell f.name ++ (f.gap ++ ':' :: (f.value.chars ++ u))) =
      .ok (name, t)) (y : δ × List Char) : P.readMember Char.utf8Size d name t ≠ .ok y := by
  rcases f.named_or_meaningless with ⟨name', hname⟩ | hm
  · cases (hname.readText _).symm.trans hn
    cases hm : P.members.find? (fun m => m.name == name) with
    | none => exact absurd (.skipped hname hm) (hno d)
    | some m =>
      cases hs : m.seen d with
      | true => simp [readMember, hm, hs]
      | false =>
        rcases hP m (List.mem_of_find?_eq_some hm) ht with ⟨note, hv⟩ | hr
        · exact absurd (.noted hname hm hs hv) (hno _)
        · have hrun := hr f.value.before_blank hu
          simp only [readMember, hm, hs, colon_field, Padded.chars, List.append_assoc,
            Bool.false_eq_true, if_false]
          split
          · exact fun h => by cases h
          · rename_i heq
            exact absurd heq (hrun _)
  · exact absurd hn (readText_meaningless hm _ _)

end Member

/-! ### All members of an object -/

section Steps
variable {d d' : δ} {name : String} {s t u r v : List Char}

theorem readMembers_last (hn : readText width s = .ok (name, t))
    (hm : P.readMember width d name t = .ok (d', u)) (hu : skipBlank u = '\x7d' :: r) :
    P.readMembers width d s = .ok (d', '\x7d' :: r) := by
  rw [readMembers]
  grind

theorem readMembers_more (hn : readText width s = .ok (name, t))
    (hm : P.readMember width d name t = .ok (d', u)) (hu : skipBlank u = ',' :: r)
    (hr : skipBlank r = '"' :: v) : P.readMembers width d s = P.readMembers width d' v := by
  rw [readMembers]
  grind

theorem readMembers_refused (h : ∀ name t, readText width s = .ok (name, t) →
    ∀ y, P.readMember width d name t ≠ .ok y) (y : δ × List Char) :
    P.readMembers width d s ≠ .ok y := by
  rw [readMembers]
  grind

end Steps

/-- The members as they are read, from behind the first one's opening quote. -/
theorem Reads.readMembers {d d' : δ} {f : Field} {fields : List Field}
    (h : P.Reads d (f :: fields) d') (ht : ∀ g ∈ f :: fields, g.value.text.IsText)
    (u : List Char) :
    P.readMembers Char.utf8Size d (spell f.name ++ (f.gap ++ ':' :: (f.value.chars ++
        (afterCommas (fields.map Field.chars) ++ '\x7d' :: u)))) = .ok (d', '\x7d' :: u) := by
  induction fields generalizing d f with
  | nil =>
    cases h with
    | cons hf hr =>
      cases hr
      obtain ⟨name, t, hn, hm⟩ := hf.read (ht f (List.mem_cons_self ..))
        (stops_rest f.value.after_blank [] (c := '\x7d') (by decide) u)
      exact readMembers_last hn hm (skipBlank_append f.value.after_blank (by decide) u)
  | cons g fields ih =>
    cases h with
    | cons hf hr =>
      obtain ⟨name, t, hn, hm⟩ := hf.read (ht f (List.mem_cons_self ..))
        (stops_rest f.value.after_blank ((g :: fields).map Field.chars) (c := '\x7d')
          (by decide) u)
      rw [List.map_cons, afterCommas_cons, List.cons_append, List.append_assoc] at hn hm ⊢
      rw [readMembers_more hn hm (skipBlank_append f.value.after_blank (by decide) _)
        (g.skipBlank_chars _)]
      exact ih hr fun k hk => ht k (List.mem_cons_of_mem f hk)

theorem refused_readMembers (hP : P.Settled) {d : δ} {f : Field} {fields : List Field}
    (hno : ∀ d', ¬P.Reads d (f :: fields) d') (ht : ∀ g ∈ f :: fields, g.value.text.IsText)
    (u : List Char) (y : δ × List Char) :
    P.readMembers Char.utf8Size d (spell f.name ++ (f.gap ++ ':' :: (f.value.chars ++
        (afterCommas (fields.map Field.chars) ++ '\x7d' :: u)))) ≠ .ok y := by
  induction fields generalizing d f with
  | nil =>
    refine readMembers_refused (fun name t hn => ?_) y
    exact readMember_refused hP (fun d' hf => hno d' (.cons hf .nil))
      (ht f (List.mem_cons_self ..))
      (stops_rest f.value.after_blank [] (c := '\x7d') (by decide) u) hn
  | cons g fields ih =>
    have hstop := stops_rest f.value.after_blank ((g :: fields).map Field.chars) (c := '\x7d')
      (by decide) u
    by_cases hf : ∃ d', P.Notes d f d'
    · obtain ⟨d', hf⟩ := hf
      obtain ⟨name, t, hn, hm⟩ := hf.read (ht f (List.mem_cons_self ..)) hstop
      rw [List.map_cons, afterCommas_cons, List.cons_append, List.append_assoc] at hn hm ⊢
      rw [readMembers_more hn hm (skipBlank_append f.value.after_blank (by decide) _)
        (g.skipBlank_chars _)]
      exact ih (fun d'' hr => hno d'' (.cons hf hr)) fun k hk => ht k (List.mem_cons_of_mem f hk)
    · refine readMembers_refused (fun name t hn => ?_) y
      exact readMember_refused hP (fun d' hf' => hf ⟨d', hf'⟩) (ht f (List.mem_cons_self ..))
        hstop hn

/-! ### Objects -/

variable {r : Raw} {a : α}

theorem Reads.takes {fields : List Field} {d : δ} (h : P.Reads P.empty fields d)
    (ho : r.IsObject fields) (hf : P.finish d = some a) :
    (P.reader Char.utf8Size).Takes r a := by
  intro b u hb _
  refine Reader.ofHalting_run.mpr ?_
  have hfront := ho.isText.skipBlank_padded hb u
  have hclose (u : List Char) : closeObject ('\x7d' :: u) = .ok u := by
    simp only [closeObject, skipBlank_cons (show isBlank '\x7d' = false by decide)]
  cases ho with
  | @empty b' hb' =>
    cases h
    have hend : skipBlank (b' ++ ['\x7d'] ++ u) = '\x7d' :: u := by
      rw [List.append_assoc]
      exact skipBlank_append hb' (by decide) u
    rw [List.cons_append] at hfront
    simp only [Plan.read, List.cons_append, hfront, readObject, hend, hf, bracketed, hclose]
  | members hne ht =>
    obtain ⟨f, fs, rfl⟩ := List.exists_cons_of_ne_nil hne
    have hchars : writeObject ((f :: fs).map Field.chars) ++ u =
        '\x7b' :: (f.chars ++ (afterCommas (fs.map Field.chars) ++ '\x7d' :: u)) := by
      rw [List.map_cons, writeObject_cons]
      simp
    rw [hchars] at hfront ⊢
    simp only [Plan.read, hfront, readObject, f.skipBlank_chars, h.readMembers ht, hf, bracketed,
      hclose]

theorem refuses_object (hP : P.Settled) {fields : List Field} (ho : r.IsObject fields)
    (hno : ∀ d, P.Reads P.empty fields d → P.finish d = none) :
    (P.reader Char.utf8Size).Refuses r := by
  intro b u hb _ y hy
  have hy := Reader.ofHalting_run.mp hy
  have hfront := ho.isText.skipBlank_padded hb u
  cases ho with
  | @empty b' hb' =>
    have hend : skipBlank (b' ++ ['\x7d'] ++ u) = '\x7d' :: u := by
      rw [List.append_assoc]
      exact skipBlank_append hb' (by decide) u
    rw [List.cons_append] at hfront hy
    simp only [Plan.read, hfront, readObject, hend, hno _ .nil, bracketed] at hy
    cases hy
  | members hne ht =>
    obtain ⟨f, fs, rfl⟩ := List.exists_cons_of_ne_nil hne
    have hchars : writeObject ((f :: fs).map Field.chars) ++ u =
        '\x7b' :: (f.chars ++ (afterCommas (fs.map Field.chars) ++ '\x7d' :: u)) := by
      rw [List.map_cons, writeObject_cons]
      simp
    rw [hchars] at hfront hy
    by_cases hr : ∃ d, P.Reads P.empty (f :: fs) d
    · obtain ⟨d, hr⟩ := hr
      simp [Plan.read, hfront, readObject, f.skipBlank_chars, hr.readMembers ht, hno d hr,
        bracketed] at hy
    · have hread := refused_readMembers hP (fun d hd => hr ⟨d, hd⟩) ht u
      cases hm : P.readMembers Char.utf8Size P.empty (spell f.name ++ (f.gap ++ ':' ::
          (f.value.chars ++ (afterCommas (fs.map Field.chars) ++ '\x7d' :: u)))) with
      | ok z => exact hread z hm
      | error stop =>
        simp only [Plan.read, hfront, readObject, f.skipBlank_chars, hm, bracketed] at hy
        cases stop <;> cases hy

/-! ### Lists -/

section Fields
variable {m : Member δ} {ms : List (Member δ)} {d : δ} {s w t : List Char} {c : Char}

theorem readFields_end {first : Bool} (hs : skipBlank s = ']' :: t) :
    ∃ rest, readFields ms first d s = .ok (d, rest) ∧ skipBlank rest = ']' :: t := by
  cases ms with
  | nil => exact ⟨s, rfl, hs⟩
  | cons m ms => exact ⟨']' :: t, by simp only [readFields, hs], skipBlank_cons (by decide) t⟩

/-- What the next member makes of the element at the front, and the others of the rest. -/
def readNext (m : Member δ) (ms : List (Member δ)) (d : δ) (s : List Char) :
    Except Stop (δ × List Char) :=
  match m.value.run s with
  | .error stop => .error stop
  | .ok (note, r) => readFields ms false (note d) r

theorem readFields_first (hs : skipBlank s = c :: w) (hc : c ≠ ']') :
    readFields (m :: ms) true d s = readNext m ms d (c :: w) := by
  rw [readFields, readNext]
  grind

theorem readFields_next (hs : skipBlank s = ',' :: t) (ht : skipBlank t = c :: w) (hc : c ≠ ']') :
    readFields (m :: ms) false d s = readNext m ms d (c :: w) := by
  rw [readFields, readNext]
  grind

/-- The list is not at its end. -/
theorem closeList_more (hs : skipBlank s = c :: w) (hc : c ≠ ']') (y : List Char) :
    closeList s ≠ .ok y := by
  unfold closeList
  rw [hs]
  grind

end Fields

theorem Fills.readNext {m : Member δ} {ms : List (Member δ)} {d d' : δ} {p : Padded}
    {ps : List Padded} (h : Fills (m :: ms) d ((p :: ps).map Padded.text) d')
    (ht : ∀ q ∈ p :: ps, q.text.IsText) (u : List Char) :
    ∃ rest, Plan.readNext m ms d
        (p.text.chars ++ (p.after ++ (afterCommas (ps.map Padded.chars) ++ ']' :: u))) =
          .ok (d', rest) ∧ skipBlank rest = ']' :: u := by
  induction ps generalizing m ms d p with
  | nil =>
    cases h with
    | @cons _ _ _ _ _ _ note hv hr =>
      cases hr
      have hrun := hv (b := []) blank_nil
        (stops_rest p.after_blank ([].map Padded.chars) (c := ']') (by decide) u)
      rw [List.nil_append] at hrun
      obtain ⟨rest, hrest, hend⟩ := @readFields_end _ ms (note d) _ _ false
        (skipBlank_append p.after_blank (show isBlank ']' = false by decide) u)
      refine ⟨rest, ?_, hend⟩
      rw [Plan.readNext, hrun]
      exact hrest
  | cons q ps ih =>
    cases h with
    | cons hv hr =>
      have hrun := hv (b := []) blank_nil
        (stops_rest p.after_blank ((q :: ps).map Padded.chars) (c := ']') (by decide) u)
      rw [List.nil_append] at hrun
      cases hr with
      | @cons m' ms' _ _ _ _ note hv' hr' =>
        obtain ⟨c, w, hfront, hc, hw⟩ := (ht q (List.mem_cons_of_mem _ (List.mem_cons_self ..))).skipBlank_chars
          (afterCommas (ps.map Padded.chars) ++ ']' :: u)
        obtain ⟨rest, hrest, hend⟩ := ih (.cons hv' hr') fun k hk =>
          ht k (List.mem_cons_of_mem p hk)
        refine ⟨rest, ?_, hend⟩
        rw [Plan.readNext, hrun]
        simp only [List.map_cons, afterCommas_cons, List.cons_append, List.append_assoc]
        rw [readFields_next (skipBlank_append p.after_blank (by decide) _) hfront hc, hw, hrest]

theorem readNext_refused {m : Member δ} {ms : List (Member δ)} {d : δ} {p : Padded}
    {ps : List Padded} (hP : ∀ k ∈ m :: ms, k.value.Settled)
    (hno : ∀ d', ¬Fills (m :: ms) d ((p :: ps).map Padded.text) d')
    (ht : ∀ q ∈ p :: ps, q.text.IsText) (u : List Char) {d' : δ} {rest : List Char}
    (hr : Plan.readNext m ms d
      (p.text.chars ++ (p.after ++ (afterCommas (ps.map Padded.chars) ++ ']' :: u))) =
        .ok (d', rest)) (y : List Char) : closeList rest ≠ .ok y := by
  induction ps generalizing m ms d p with
  | nil =>
    have hstop := stops_rest p.after_blank [] (c := ']') (by decide) u
    rcases hP m (List.mem_cons_self ..) (ht p (List.mem_cons_self ..)) with ⟨note, hv⟩ | hv
    · exact absurd (.cons hv .nil) (hno _)
    · have hrun := hv (b := []) blank_nil hstop
      rw [List.nil_append] at hrun
      rw [Plan.readNext] at hr
      split at hr
      · cases hr
      · rename_i heq
        exact absurd heq (hrun _)
  | cons q ps ih =>
    have hstop := stops_rest p.after_blank ((q :: ps).map Padded.chars) (c := ']') (by decide) u
    rw [Plan.readNext] at hr
    split at hr
    · cases hr
    · rename_i note s heq
      rcases hP m (List.mem_cons_self ..) (ht p (List.mem_cons_self ..)) with ⟨note', hv⟩ | hv
      · have hrun := hv (b := []) blank_nil hstop
        rw [List.nil_append] at hrun
        cases hrun.symm.trans heq
        simp only [List.map_cons, afterCommas_cons, List.cons_append, List.append_assoc] at hr
        have hcomma {u : List Char} : skipBlank (p.after ++ ',' :: u) = ',' :: u :=
          skipBlank_append p.after_blank (by decide) u
        cases ms with
        | nil =>
          cases hr
          exact closeList_more hcomma (by decide) y
        | cons m' ms =>
          obtain ⟨c, w, hfront, hc, hw⟩ := (ht q (List.mem_cons_of_mem _ (List.mem_cons_self ..))).skipBlank_chars
            (afterCommas (ps.map Padded.chars) ++ ']' :: u)
          rw [readFields_next hcomma hfront hc, hw] at hr
          exact ih (fun k hk => hP k (List.mem_cons_of_mem m hk))
            (fun d'' hf => hno d'' (.cons hv hf)) (fun k hk => ht k (List.mem_cons_of_mem p hk)) hr
      · have hrun := hv (b := []) blank_nil hstop
        rw [List.nil_append] at hrun
        exact absurd heq (hrun _)

theorem Fills.nothing {ms : List (Member δ)} {d d' : δ} (h : Fills ms d [] d') : d' = d := by
  cases h
  rfl

theorem closeList_end {s u : List Char} (h : skipBlank s = ']' :: u) : closeList s = .ok u := by
  simp only [closeList, h]

theorem Fills.takes {items : List Raw} {d : δ} (h : Fills P.members P.empty items d)
    (hl : r.IsList items) (hf : P.finish d = some a) :
    (P.reader Char.utf8Size).Takes r a := by
  intro b u hb _
  refine Reader.ofHalting_run.mpr ?_
  have hfront := hl.isText.skipBlank_padded hb u
  have of_fields {s t rest : List Char} (hs : skipBlank t = '[' :: s)
      (hrest : readFields P.members true P.empty s = .ok (d, rest))
      (hend : skipBlank rest = ']' :: u) : P.read Char.utf8Size t = .ok (a, u) := by
    simp only [Plan.read, hs, readList, hrest, hf, bracketed, closeList_end hend]
  cases hl with
  | @empty b' hb' =>
    cases h.nothing
    have hend : skipBlank (b' ++ ([']'] ++ u)) = ']' :: u := skipBlank_append hb' (by decide) u
    obtain ⟨rest, hrest, hend⟩ := @readFields_end _ P.members P.empty _ _ true hend
    rw [List.cons_append, List.append_assoc] at hfront ⊢
    exact of_fields hfront hrest hend
  | @items ps hne ht =>
    obtain ⟨p, ps, rfl⟩ := List.exists_cons_of_ne_nil hne
    obtain ⟨c, w, hfirst, hc, hw⟩ := (ht p (List.mem_cons_self ..)).skipBlank_chars
      (afterCommas (ps.map Padded.chars) ++ ']' :: u)
    have hchars : writeList ((p :: ps).map Padded.chars) ++ u =
        '[' :: (p.chars ++ (afterCommas (ps.map Padded.chars) ++ ']' :: u)) := by
      rw [List.map_cons, writeList_cons]
      simp
    rw [hchars] at hfront ⊢
    generalize hms : P.members = ms at h
    cases ms with
    | nil => cases h
    | cons m ms =>
      obtain ⟨rest, hrest, hend⟩ := h.readNext ht u
      refine of_fields hfront ?_ hend
      rw [hms, readFields_first hfirst hc, hw, hrest]

theorem refuses_list (hP : P.Settled) {items : List Raw} (hl : r.IsList items)
    (hno : ∀ d, Fills P.members P.empty items d → P.finish d = none) :
    (P.reader Char.utf8Size).Refuses r := by
  intro b u hb _ y hy
  have hy := Reader.ofHalting_run.mp hy
  have hfront := hl.isText.skipBlank_padded hb u
  -- whatever was noted is either not finished or not at the end of the list
  have of_fields {s t : List Char} (hy : P.read Char.utf8Size t = .ok y)
      (hs : skipBlank t = '[' :: s)
      (hbad : ∀ d rest, readFields P.members true P.empty s = .ok (d, rest) →
        P.finish d = none ∨ ∀ z, closeList rest ≠ .ok z) : False := by
    simp only [Plan.read, hs, readList] at hy
    cases hr : readFields P.members true P.empty s with
    | error stop =>
      rw [hr] at hy
      cases stop <;> cases hy
    | ok x =>
      obtain ⟨d, rest⟩ := x
      rw [hr] at hy
      cases hf : P.finish d with
      | none =>
        simp only [hf, bracketed] at hy
        cases hy
      | some a =>
        have hclose := (hbad d rest hr).resolve_left (by rw [hf]; exact Option.some_ne_none a)
        simp only [hf, bracketed] at hy
        split at hy
        · rename_i heq
          exact hclose _ heq
        · cases hy
  cases hl with
  | @empty b' hb' =>
    have hend : skipBlank (b' ++ ([']'] ++ u)) = ']' :: u := skipBlank_append hb' (by decide) u
    obtain ⟨rest, hrest, -⟩ := @readFields_end _ P.members P.empty _ _ true hend
    rw [List.cons_append, List.append_assoc] at hfront hy
    refine of_fields hy hfront fun d rest' hr => .inl ?_
    cases hrest.symm.trans hr
    exact hno _ .nil
  | @items ps hne ht =>
    obtain ⟨p, ps, rfl⟩ := List.exists_cons_of_ne_nil hne
    obtain ⟨c, w, hfirst, hc, hw⟩ := (ht p (List.mem_cons_self ..)).skipBlank_chars
      (afterCommas (ps.map Padded.chars) ++ ']' :: u)
    have hchars : writeList ((p :: ps).map Padded.chars) ++ u =
        '[' :: (p.chars ++ (afterCommas (ps.map Padded.chars) ++ ']' :: u)) := by
      rw [List.map_cons, writeList_cons]
      simp
    rw [hchars] at hfront hy
    refine of_fields hy hfront fun d rest hr => ?_
    cases hms : P.members with
    | nil =>
      rw [hms] at hr
      cases hr
      exact .inr (closeList_more hfirst hc)
    | cons m ms =>
      rw [hms, readFields_first hfirst hc, hw] at hr
      by_cases hfill : ∃ d', Fills (m :: ms) P.empty ((p :: ps).map Padded.text) d'
      · obtain ⟨d', hfill⟩ := hfill
        obtain ⟨rest', hrest, -⟩ := hfill.readNext ht u
        cases hrest.symm.trans hr
        exact .inl (hno _ (by rw [hms]; exact hfill))
      · exact .inr (readNext_refused (fun k hk => hP k (hms ▸ hk)) (fun d' hd => hfill ⟨d', hd⟩) ht
          u hr)

/-! ### Any text -/

/-- What a structure's text is laid out as, and what it comes to. -/
def Gives (P : Plan δ α) (r : Raw) (a : α) : Prop :=
  ∃ d, P.finish d = some a ∧
    ((∃ fields, r.IsObject fields ∧ P.Reads P.empty fields d) ∨
      ∃ items, r.IsList items ∧ Fills P.members P.empty items d)

theorem refuses_scalar (h : r.IsScalar) (hr : r.IsText) : (P.reader Char.utf8Size).Refuses r := by
  intro b u hb _ y hy
  have hy := Reader.ofHalting_run.mp hy
  obtain ⟨c, v, hchars, -, hl, ho, -⟩ := h
  have hfront := hr.skipBlank_padded hb u
  rw [hchars, List.cons_append] at hfront hy
  simp only [Plan.read] at hy
  split at hy
  · rename_i heq
    exact hl (List.cons.inj (hfront.symm.trans heq)).1
  · rename_i heq
    exact ho (List.cons.inj (hfront.symm.trans heq)).1
  · cases hy

theorem Gives.takes (h : P.Gives r a) : (P.reader Char.utf8Size).Takes r a := by
  obtain ⟨d, hf, ⟨fields, ho, hr⟩ | ⟨items, hl, hr⟩⟩ := h
  · exact hr.takes ho hf
  · exact hr.takes hl hf

theorem gives_or_refuses (hP : P.Settled) (h : r.IsText) :
    (∃ a, P.Gives r a) ∨ (P.reader Char.utf8Size).Refuses r := by
  by_cases hg : ∃ a, P.Gives r a
  · exact .inl hg
  · refine .inr ?_
    have none_of {d : δ} (hr : (∃ fields, r.IsObject fields ∧ P.Reads P.empty fields d) ∨
        ∃ items, r.IsList items ∧ Fills P.members P.empty items d) : P.finish d = none := by
      cases hf : P.finish d with
      | none => rfl
      | some a => exact absurd ⟨a, d, hf, hr⟩ hg
    rcases Raw.isText_cases h with ⟨items, hl⟩ | ⟨fields, ho⟩ | hs
    · exact refuses_list hP hl fun d hd => none_of (.inr ⟨items, hl, hd⟩)
    · exact refuses_object hP ho fun d hd => none_of (.inl ⟨fields, ho, hd⟩)
    · exact refuses_scalar hs h

theorem reader_settled (hP : P.Settled) : (P.reader Char.utf8Size).Settled := fun _ h =>
  (gives_or_refuses hP h).imp_left fun ⟨a, ha⟩ => ⟨a, ha.takes⟩

/-- **A structure is taken from a text that is laid out as one, and from nothing else.** -/
theorem reader_takes_iff (hP : P.Settled) (h : r.IsText) :
    (P.reader Char.utf8Size).Takes r a ↔ P.Gives r a := by
  constructor
  · intro ha
    rcases gives_or_refuses hP h with ⟨a', ha'⟩ | hno
    · cases ha'.takes.unique ha
      exact ha'
    · exact absurd hno ha.not_refuses
  · exact Gives.takes

end Switchboard.Json.Plan
