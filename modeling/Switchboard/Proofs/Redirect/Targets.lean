import Mathlib.Data.List.Nodup
import Switchboard.Proofs.Text.Affixes
import Switchboard.Proofs.Text.Order
import Switchboard.Redirect.Hub

/-! Targets, and what a list of them stands for.

A target is refused for its namespace, else, unless it is disabled, for its timeout, else for its
endpoint (`Target.Refused`); in a list it also offends when an earlier one has its namespace
(`Target.Offends`). A list in which none offends stands for one redirection for each enabled target,
each under a name of its own; the disabled ones are checked and leave nothing behind. Any other list
is refused for its first offence (`Redirection.ofTargets_exact`). -/
namespace Switchboard.Redirect
open Text

/-! ### One target -/

/-- An ASCII letter, and then ASCII letters and digits. -/
def IsName (name : String) : Prop :=
  ∃ c rest, name.toList = c :: rest ∧ c.isAlpha = true ∧ ∀ d ∈ rest, d.isAlphanum = true

theorem isNamespace_iff {name : String} : Method.isNamespace name = true ↔ IsName name := by
  have hupper (c : Char) : (decide ('A' ≤ c) && decide (c ≤ 'Z')) = c.isUpper :=
    (Bool.decide_and _ _).symm
  have hletter (c : Char) : Method.isLetter c = c.isAlpha := congrArg (· || c.isLower) (hupper c)
  have hdigit (c : Char) : Method.isLetterOrDigit c = c.isAlphanum :=
    congrArg (· || c.isDigit) (hletter c)
  unfold Method.isNamespace IsName
  cases name.toList with
  | nil => simp
  | cons c rest => simp [hletter, hdigit]

namespace Target
variable {t : Target} {e : TargetError} {endpoint? : Option Endpoint}

/-- There is nothing but white space for an endpoint. -/
def Disabled (t : Target) : Prop := Spaces t.endpoint.toList

theorem isEnabled_iff : t.isEnabled = true ↔ ¬t.Disabled := by
  rw [Disabled, ← trimmed_eq_nil_iff, isEnabled, Bool.not_eq_true', Bool.eq_false_iff, ne_eq,
    List.isEmpty_iff]

/-- Why a target is refused by itself. -/
inductive Refused (t : Target) : TargetError → Prop
  | badNamespace (hn : ¬IsName t.namespaceName) : Refused t (.badNamespace t.namespaceName)
  | zeroTimeout (hn : IsName t.namespaceName) (he : ¬t.Disabled) (h0 : t.connectTimeoutMs = 0) :
      Refused t (.zeroTimeout t.namespaceName)
  | badEndpoint {e : TargetError} (hn : IsName t.namespaceName) (he : ¬t.Disabled)
      (h0 : t.connectTimeoutMs ≠ 0) (hp : Endpoint.parse t.endpoint = .error e) : Refused t e

/-- A target that can be used, or is disabled. -/
structure Sound (t : Target) : Prop where
  name : IsName t.namespaceName
  timeout : ¬t.Disabled → t.connectTimeoutMs ≠ 0
  endpoint : ¬t.Disabled → ∃ e, Endpoint.parse t.endpoint = .ok e

/-- What checking a target comes to. -/
inductive Checked (t : Target) : Except TargetError (Option Endpoint) → Prop
  | refused {e : TargetError} (h : t.Refused e) : Checked t (.error e)
  | disabled (hn : IsName t.namespaceName) (hd : t.Disabled) : Checked t (.ok none)
  | enabled {e : Endpoint} (hn : IsName t.namespaceName) (he : ¬t.Disabled)
      (h0 : t.connectTimeoutMs ≠ 0) (hp : Endpoint.parse t.endpoint = .ok e) :
      Checked t (.ok (some e))

theorem checked (t : Target) : t.Checked t.validate := by
  unfold validate
  by_cases hn : IsName t.namespaceName
  · have hname := isNamespace_iff.mpr hn
    by_cases hd : t.Disabled
    · have hoff : t.isEnabled = false := Bool.eq_false_iff.mpr fun he => isEnabled_iff.mp he hd
      simp only [hname, hoff, Bool.not_true, Bool.not_false, Bool.false_eq_true, if_false, if_true]
      exact .disabled hn hd
    · have hon := isEnabled_iff.mpr hd
      simp only [hname, hon, Bool.not_true, Bool.false_eq_true, if_false]
      by_cases h0 : t.connectTimeoutMs = 0
      · rw [if_pos h0]
        exact .refused (.zeroTimeout hn hd h0)
      · rw [if_neg h0]
        cases hp : Endpoint.parse t.endpoint with
        | ok endpoint => exact .enabled hn hd h0 hp
        | error e => exact .refused (.badEndpoint hn hd h0 hp)
  · have hname : Method.isNamespace t.namespaceName = false :=
      Bool.eq_false_iff.mpr fun h => hn (isNamespace_iff.mp h)
    simp only [hname, Bool.not_false, if_true]
    exact .refused (.badNamespace hn)

theorem Checked.sound (h : t.Checked (.ok endpoint?)) : t.Sound := by
  cases h with
  | disabled hn hd => exact ⟨hn, fun he => absurd hd he, fun he => absurd hd he⟩
  | enabled hn _ h0 hp => exact ⟨hn, fun _ => h0, fun _ => ⟨_, hp⟩⟩

theorem Refused.not_sound (h : t.Refused e) : ¬t.Sound := by
  intro hs
  cases h with
  | badNamespace hn => exact hn hs.name
  | zeroTimeout _ he h0 => exact hs.timeout he h0
  | badEndpoint _ he _ hp =>
    obtain ⟨endpoint, hok⟩ := hs.endpoint he
    cases hp.symm.trans hok

theorem Refused.unique {e' : TargetError} (h : t.Refused e) (h' : t.Refused e') : e = e' := by
  cases h with
  | badNamespace hn =>
    cases h' with
    | badNamespace => rfl
    | zeroTimeout hn' => exact absurd hn' hn
    | badEndpoint hn' => exact absurd hn' hn
  | zeroTimeout hn he h0 =>
    cases h' with
    | badNamespace hn' => exact absurd hn hn'
    | zeroTimeout => rfl
    | badEndpoint _ _ h0' => exact absurd h0 h0'
  | badEndpoint hn he h0 hp =>
    cases h' with
    | badNamespace hn' => exact absurd hn hn'
    | zeroTimeout _ _ h0' => exact absurd h0' h0
    | badEndpoint _ _ _ hp' => exact Except.error.inj (hp.symm.trans hp')

theorem validate_eq_error_iff : t.validate = .error e ↔ t.Refused e := by
  have hchecked := t.checked
  constructor
  · intro h
    rw [h] at hchecked
    cases hchecked with
    | refused hrefused => exact hrefused
  · intro h
    cases hv : t.validate with
    | ok endpoint? => exact absurd (hv ▸ hchecked).sound h.not_sound
    | error e' =>
      rw [hv] at hchecked
      cases hchecked with
      | refused hrefused => rw [h.unique hrefused]

theorem sound_iff : t.Sound ↔ ∃ endpoint?, t.validate = .ok endpoint? := by
  constructor
  · intro h
    cases hv : t.validate with
    | ok endpoint? => exact ⟨endpoint?, rfl⟩
    | error e => exact absurd h (validate_eq_error_iff.mp hv).not_sound
  · rintro ⟨endpoint?, hv⟩
    exact (hv ▸ t.checked).sound

theorem isSome_of_validate (h : t.validate = .ok endpoint?) : endpoint?.isSome = t.isEnabled := by
  have hchecked := h ▸ t.checked
  cases hchecked with
  | disabled _ hd => exact (Bool.eq_false_iff.mpr fun he => isEnabled_iff.mp he hd).symm
  | enabled _ he => exact (isEnabled_iff.mpr he).symm

/-- Why a target is refused in a list, behind targets of the given names. -/
inductive Offends (names : List String) (t : Target) : TargetError → Prop
  | refused {e : TargetError} (h : t.Refused e) : Offends names t e
  | duplicate (hs : t.Sound) (h : t.namespaceName ∈ names) :
      Offends names t (.duplicate t.namespaceName)

variable {names names' : List String}

/-- In which order the names came does not matter. -/
theorem Offends.congr (h : t.Offends names e) (hsame : ∀ n, n ∈ names → n ∈ names') :
    t.Offends names' e := by
  cases h with
  | refused h => exact .refused h
  | duplicate hs h => exact .duplicate hs (hsame _ h)

/-- The first target that offends, behind targets of the given names, is the one at that place. -/
structure FirstOffence (names : List String) (targets : List Target) (i : Nat) (e : TargetError) :
    Prop where
  offends : ∃ t, targets[i]? = some t ∧ t.Offends (names ++ (targets.take i).map namespaceName) e
  first : ∀ j < i, ∀ t, targets[j]? = some t →
    ∀ e', ¬t.Offends (names ++ (targets.take j).map namespaceName) e'

variable {rest : List Target} {i : Nat}

theorem firstOffence_zero : FirstOffence names (t :: rest) 0 e ↔ t.Offends names e := by
  constructor
  · rintro ⟨⟨u, hu, hoffends⟩, -⟩
    cases hu
    simpa using hoffends
  · intro h
    exact ⟨⟨t, rfl, by simpa using h⟩, fun j hj => absurd hj (Nat.not_lt_zero j)⟩

theorem firstOffence_succ : FirstOffence names (t :: rest) (i + 1) e ↔
    (∀ e', ¬t.Offends names e') ∧ FirstOffence (t.namespaceName :: names) rest i e := by
  have hsame (j : Nat) (u : Target) (e' : TargetError) :
      u.Offends (names ++ ((t :: rest).take (j + 1)).map namespaceName) e' ↔
        u.Offends (t.namespaceName :: names ++ (rest.take j).map namespaceName) e' := by
    constructor <;> intro h <;> refine h.congr fun n hn => ?_ <;> simp at hn ⊢ <;> tauto
  constructor
  · rintro ⟨⟨u, hu, hoffends⟩, hfirst⟩
    refine ⟨fun e' h => ?_, ⟨u, hu, (hsame i u e).mp hoffends⟩, fun j hj v hv e' h => ?_⟩
    · exact hfirst 0 (Nat.succ_pos i) t rfl e' (by simpa using h)
    · exact hfirst (j + 1) (Nat.succ_lt_succ hj) v hv e' ((hsame j v e').mpr h)
  · rintro ⟨ht, ⟨u, hu, hoffends⟩, hfirst⟩
    refine ⟨⟨u, hu, (hsame i u e).mpr hoffends⟩, fun j hj v hv e' h => ?_⟩
    cases j with
    | zero =>
      cases hv
      exact ht e' (by simpa using h)
    | succ j => exact hfirst j (Nat.lt_of_succ_lt_succ hj) v hv e' ((hsame j v e').mp h)

end Target

/-! ### Lists of targets -/

namespace Redirection
variable {names : List String} {enabled redirections : List Redirection} {targets : List Target}

/-- The redirection is that of a target, which is enabled and was accepted. -/
def Of (q : Redirection) (t : Target) : Prop := q.target = t ∧ t.validate = .ok (some q.endpoint)

theorem Of.isEnabled {q : Redirection} {t : Target} (h : q.Of t) : t.isEnabled = true :=
  (Target.isSome_of_validate h.2).symm

theorem mem_insert {q q' : Redirection} {l : List Redirection} :
    q ∈ insert q' l ↔ q = q' ∨ q ∈ l := by
  induction l with
  | nil => simp [insert]
  | cons p rest ih =>
    unfold insert
    split
    · exact List.mem_cons
    · simp only [List.mem_cons, ih, or_left_comm]

/-- One target more is accepted. -/
theorem collect_cons {t : Target} {rest : List Target}
    (h : collect names enabled (t :: rest) = .ok redirections) :
    t.namespaceName ∉ names ∧
      ((t.isEnabled = false ∧ t.validate = .ok none ∧
          collect (t.namespaceName :: names) enabled rest = .ok redirections) ∨
        ∃ e, t.isEnabled = true ∧ t.validate = .ok (some e) ∧
          collect (t.namespaceName :: names) (insert ⟨t, e⟩ enabled) rest = .ok redirections) := by
  simp only [collect] at h
  split at h
  · cases h
  · rename_i endpoint? hvalid
    have hsome := Target.isSome_of_validate hvalid
    split at h
    · cases h
    · rename_i hnew
      refine ⟨hnew, ?_⟩
      cases endpoint? with
      | none => exact .inl ⟨hsome.symm, hvalid, h⟩
      | some e => exact .inr ⟨e, hsome.symm, hvalid, h⟩

/-- What is collected is what was there before, and the redirections of the enabled targets. -/
theorem mem_collect (h : collect names enabled targets = .ok redirections) {q : Redirection} :
    q ∈ redirections ↔ q ∈ enabled ∨ ∃ t ∈ targets, q.Of t := by
  induction targets generalizing names enabled with
  | nil =>
    cases h
    simp
  | cons t rest ih =>
    rcases (collect_cons h).2 with ⟨-, hvalid, h⟩ | ⟨e, -, hvalid, h⟩
    · have hno : ¬q.Of t := fun hq => by cases hvalid.symm.trans hq.2
      simp [ih h, hno]
    · have hsame : q.Of t ↔ q = ⟨t, e⟩ := by
        refine ⟨fun ⟨ht, hq⟩ => ?_, fun hq => hq ▸ ⟨rfl, hvalid⟩⟩
        cases hvalid.symm.trans hq
        cases ht
        rfl
      simp [ih h, mem_insert, hsame, or_assoc, or_left_comm]

/-- Each namespace comes once, and has not come before. -/
theorem names_of_collect (h : collect names enabled targets = .ok redirections) :
    (targets.map Target.namespaceName).Nodup ∧ ∀ t ∈ targets, t.namespaceName ∉ names := by
  induction targets generalizing names enabled with
  | nil => exact ⟨.nil, fun _ ht => by cases ht⟩
  | cons t rest ih =>
    obtain ⟨hnew, hrest⟩ := collect_cons h
    obtain ⟨hnodup, hlater⟩ : (rest.map Target.namespaceName).Nodup ∧
        ∀ u ∈ rest, u.namespaceName ∉ t.namespaceName :: names := by
      rcases hrest with ⟨-, -, h⟩ | ⟨e, -, -, h⟩
      · exact ih h
      · exact ih h
    refine ⟨List.nodup_cons.mpr ⟨fun ht => ?_, hnodup⟩,
      List.forall_mem_cons.mpr ⟨hnew, fun u hu hn => ?_⟩⟩
    · obtain ⟨u, hu, hsame⟩ := List.mem_map.mp ht
      exact hlater u hu (hsame ▸ List.mem_cons_self ..)
    · exact hlater u hu (List.mem_cons_of_mem _ hn)

/-- **Disabled targets may as well be left out**, also if fewer names have come before. -/
theorem collect_filter {fewer : List String} (hfewer : ∀ n ∈ fewer, n ∈ names)
    (h : collect names enabled targets = .ok redirections) :
    collect fewer enabled (targets.filter Target.isEnabled) = .ok redirections := by
  induction targets generalizing names fewer enabled with
  | nil => exact h
  | cons t rest ih =>
    obtain ⟨hnew, ⟨hdisabled, -, h⟩ | ⟨e, henabled, hvalid, h⟩⟩ := collect_cons h
    · rw [List.filter_cons_of_neg (by simp [hdisabled])]
      exact ih (fun n hn => List.mem_cons_of_mem _ (hfewer n hn)) h
    · have hfresh : t.namespaceName ∉ fewer := fun ht => hnew (hfewer _ ht)
      rw [List.filter_cons_of_pos henabled]
      simp only [collect, hvalid, if_neg hfresh]
      refine ih (fun n hn => ?_) h
      rcases List.mem_cons.mp hn with rfl | hn
      · exact List.mem_cons_self ..
      · exact List.mem_cons_of_mem _ (hfewer n hn)

theorem mem_ofTargets (h : ofTargets targets = .ok redirections) {q : Redirection} :
    q ∈ redirections ↔ ∃ t ∈ targets, q.Of t := by
  simpa using mem_collect h

/-- Every target of a list that is accepted is accepted by itself. -/
theorem exists_validate (h : collect names enabled targets = .ok redirections) {t : Target}
    (ht : t ∈ targets) : ∃ endpoint?, t.validate = .ok endpoint? := by
  induction targets generalizing names enabled with
  | nil => cases ht
  | cons u rest ih =>
    obtain ⟨-, hu⟩ := collect_cons h
    rcases List.mem_cons.mp ht with rfl | ht
    · rcases hu with ⟨-, hvalid, -⟩ | ⟨e, -, hvalid, -⟩
      · exact ⟨_, hvalid⟩
      · exact ⟨_, hvalid⟩
    · rcases hu with ⟨-, -, h⟩ | ⟨e, -, -, h⟩
      · exact ih h ht
      · exact ih h ht

/-- Every enabled target has its redirection. -/
theorem exists_of_enabled (h : ofTargets targets = .ok redirections) {t : Target} (ht : t ∈ targets)
    (henabled : t.isEnabled = true) : ∃ q ∈ redirections, q.Of t := by
  obtain ⟨endpoint?, hvalid⟩ := exists_validate h ht
  have hsome := (Target.isSome_of_validate hvalid).trans henabled
  obtain ⟨e, rfl⟩ := Option.isSome_iff_exists.mp hsome
  exact ⟨⟨t, e⟩, (mem_ofTargets h).mpr ⟨t, ht, rfl, hvalid⟩, rfl, hvalid⟩

/-- The namespaces of the redirections are those of the enabled targets. -/
theorem exists_named_iff (h : ofTargets targets = .ok redirections) {name : String} :
    (∃ q ∈ redirections, q.namespaceName = name) ↔
      ∃ t ∈ targets, t.isEnabled = true ∧ t.namespaceName = name := by
  constructor
  · rintro ⟨q, hq, rfl⟩
    obtain ⟨t, ht, hof⟩ := (mem_ofTargets h).mp hq
    exact ⟨t, ht, hof.isEnabled, by rw [← hof.1]; rfl⟩
  · rintro ⟨t, ht, henabled, rfl⟩
    obtain ⟨q, hq, hof⟩ := exists_of_enabled h ht henabled
    exact ⟨q, hq, by rw [← hof.1]; rfl⟩

/-- A namespace tells the redirections apart. -/
theorem eq_of_namespaceName (h : ofTargets targets = .ok redirections) {q q' : Redirection}
    (hq : q ∈ redirections) (hq' : q' ∈ redirections) (hsame : q.namespaceName = q'.namespaceName) :
    q = q' := by
  obtain ⟨t, ht, rfl, hvalid⟩ := (mem_ofTargets h).mp hq
  obtain ⟨t', ht', rfl, hvalid'⟩ := (mem_ofTargets h).mp hq'
  have htarget : q.target = q'.target :=
    List.inj_on_of_nodup_map (names_of_collect h).1 ht ht' hsame
  rw [htarget, hvalid'] at hvalid
  cases q
  cases q'
  cases htarget
  cases hvalid
  rfl

/-! ### Lists that are refused -/

variable {t : Target} {rest : List Target} {e : TargetError}

theorem collect_of_offends (h : t.Offends names e) :
    collect names enabled (t :: rest) = .error e := by
  cases h with
  | refused h => simp only [collect, Target.validate_eq_error_iff.mpr h]
  | duplicate hs hn =>
    obtain ⟨endpoint?, hv⟩ := Target.sound_iff.mp hs
    simp only [collect, hv, if_pos hn]

theorem collect_of_not_offends (h : ∀ e, ¬t.Offends names e) :
    ∃ enabled', collect names enabled (t :: rest) =
      collect (t.namespaceName :: names) enabled' rest := by
  cases hv : t.validate with
  | error e => exact absurd (.refused (Target.validate_eq_error_iff.mp hv)) (h e)
  | ok endpoint? =>
    have hnew : t.namespaceName ∉ names := fun hn =>
      h _ (.duplicate (Target.sound_iff.mpr ⟨endpoint?, hv⟩) hn)
    cases endpoint? <;> simp only [collect, hv, if_neg hnew] <;> exact ⟨_, rfl⟩

/-- **A list is refused for its first offence.** -/
theorem collect_eq_error_iff : collect names enabled targets = .error e ↔
    ∃ i, Target.FirstOffence names targets i e := by
  induction targets generalizing names enabled with
  | nil =>
    constructor
    · intro h
      cases h
    · rintro ⟨i, ⟨t, ht, -⟩, -⟩
      cases ht
  | cons t rest ih =>
    by_cases hoffends : ∃ e', t.Offends names e'
    · obtain ⟨e', ht⟩ := hoffends
      constructor
      · intro h
        cases (collect_of_offends ht).symm.trans h
        exact ⟨0, Target.firstOffence_zero.mpr ht⟩
      · rintro ⟨i, hi⟩
        cases i with
        | zero => exact collect_of_offends (Target.firstOffence_zero.mp hi)
        | succ i => exact absurd ht ((Target.firstOffence_succ.mp hi).1 e')
    · have hno : ∀ e', ¬t.Offends names e' := fun e' h => hoffends ⟨e', h⟩
      obtain ⟨enabled', hcollect⟩ := @collect_of_not_offends names enabled t rest hno
      rw [hcollect, ih]
      constructor
      · rintro ⟨i, hi⟩
        exact ⟨i + 1, Target.firstOffence_succ.mpr ⟨hno, hi⟩⟩
      · rintro ⟨i, hi⟩
        cases i with
        | zero => exact absurd (Target.firstOffence_zero.mp hi) (hno e)
        | succ i => exact ⟨i, (Target.firstOffence_succ.mp hi).2⟩

/-- A list is accepted when all targets are sound and have names of their own. -/
theorem exists_collect (hsound : ∀ t ∈ targets, t.Sound)
    (hnodup : (targets.map Target.namespaceName).Nodup)
    (hnew : ∀ t ∈ targets, t.namespaceName ∉ names) :
    ∃ redirections, collect names enabled targets = .ok redirections := by
  induction targets generalizing names enabled with
  | nil => exact ⟨enabled, rfl⟩
  | cons t rest ih =>
    have ht := hsound t (List.mem_cons_self ..)
    have hno : ∀ e, ¬t.Offends names e := by
      intro e h
      cases h with
      | refused h => exact h.not_sound ht
      | duplicate _ hn => exact hnew t (List.mem_cons_self ..) hn
    obtain ⟨enabled', hcollect⟩ := @collect_of_not_offends names enabled t rest hno
    obtain ⟨hfresh, hnodup⟩ := List.nodup_cons.mp hnodup
    rw [hcollect]
    refine ih (fun u hu => hsound u (List.mem_cons_of_mem _ hu)) hnodup fun u hu hn => ?_
    rcases List.mem_cons.mp hn with hsame | hn
    · exact hfresh (hsame ▸ List.mem_map_of_mem hu)
    · exact hnew u (List.mem_cons_of_mem _ hu) hn

/-! ### The order of names -/

/-- One more redirection, under a name of its own, comes to its place. -/
theorem ascending_insert {q : Redirection} {l : List Redirection}
    (hl : Ascending (l.map namespaceName)) (hnew : ∀ p ∈ l, p.namespaceName ≠ q.namespaceName) :
    Ascending ((insert q l).map namespaceName) := by
  rw [ascending_iff] at hl ⊢
  induction l with
  | nil => simp [insert]
  | cons p rest ih =>
    obtain ⟨hp, hrest⟩ := List.pairwise_cons.mp hl
    have hpq := hnew p (List.mem_cons_self ..)
    unfold insert
    split
    · rename_i hlt
      refine List.pairwise_cons.mpr ⟨fun n hn => ?_, hl⟩
      rcases List.mem_cons.mp hn with rfl | hn
      · exact hlt
      · exact hlt.trans (hp n hn)
    · rename_i hle
      have hlt : p.namespaceName < q.namespaceName := lt_of_le_of_ne (not_lt.mp hle) hpq
      refine List.pairwise_cons.mpr ⟨fun n hn => ?_,
        ih hrest fun r hr => hnew r (List.mem_cons_of_mem _ hr)⟩
      obtain ⟨r, hr, rfl⟩ := List.mem_map.mp hn
      rcases mem_insert.mp hr with rfl | hr
      · exact hlt
      · exact hp _ (List.mem_map_of_mem hr)

theorem ascending_collect (h : collect names enabled targets = .ok redirections)
    (henabled : Ascending (enabled.map namespaceName)) (hnames : ∀ q ∈ enabled, q.namespaceName ∈ names) :
    Ascending (redirections.map namespaceName) := by
  induction targets generalizing names enabled with
  | nil =>
    cases h
    exact henabled
  | cons t rest ih =>
    obtain ⟨hnew, ⟨-, -, h⟩ | ⟨e, -, -, h⟩⟩ := collect_cons h
    · exact ih h henabled fun q hq => List.mem_cons_of_mem _ (hnames q hq)
    · refine ih h (ascending_insert henabled fun p hp hsame => ?_) fun q hq => ?_
      · exact hnew ((show p.namespaceName = t.namespaceName from hsame) ▸ hnames p hp)
      · rcases mem_insert.mp hq with rfl | hq
        · exact List.mem_cons_self ..
        · exact List.mem_cons_of_mem _ (hnames q hq)

theorem ascending_ofTargets (h : ofTargets targets = .ok redirections) :
    Ascending (redirections.map namespaceName) :=
  ascending_collect h .nil fun q hq => by cases hq

theorem Of.parse {q : Redirection} (h : q.Of t) : Endpoint.parse t.endpoint = .ok q.endpoint := by
  have hchecked := h.2 ▸ t.checked
  cases hchecked with
  | enabled _ _ _ hp => exact hp

end Redirection

/-! ### The hub of a list of targets -/

namespace Hub
variable {targets : List Target} {redirections : List Redirection} {longestFrame : Nat}

/-- The hub has a manager for each enabled target, built from it and never used, and no other; it
reports them in the order of their names. -/
structure Unused (h : Hub) (targets : List Target) : Prop where
  managed : ∀ name, (h.manager? name).isSome ↔ ∃ t ∈ targets, ¬t.Disabled ∧ t.namespaceName = name
  built : ∀ t ∈ targets, ¬t.Disabled → ∃ i e, h.manager? t.namespaceName = some i ∧
    Endpoint.parse t.endpoint = .ok e ∧
    h.managers[i]? = some { redirection := ⟨t, e⟩, state := .idle, dials := 0 }
  idle : ∀ m ∈ h.managers, m.state = .idle ∧ m.dials = 0
  reports : ∀ s, s ∈ h.statuses ↔ ∃ t ∈ targets, ∃ e, ¬t.Disabled ∧
    Endpoint.parse t.endpoint = .ok e ∧ s = ⟨t.namespaceName, e.display, "idle", 0⟩
  ascending : Ascending (h.statuses.map Status.namespaceName)

theorem statuses_ofRedirections : (ofRedirections longestFrame redirections).statuses =
    redirections.map fun q => ⟨q.namespaceName, q.endpoint.display, "idle", 0⟩ := by
  rw [statuses, ofRedirections, List.map_map]
  rfl

theorem names_ofRedirections :
    (ofRedirections longestFrame redirections).statuses.map Status.namespaceName =
      redirections.map Redirection.namespaceName := by
  rw [statuses_ofRedirections, List.map_map]
  rfl

theorem manager?_ofRedirections (h : Redirection.ofTargets targets = .ok redirections)
    {q : Redirection} (hq : q ∈ redirections) :
    ∃ i, (ofRedirections longestFrame redirections).manager? q.namespaceName = some i ∧
      (ofRedirections longestFrame redirections).managers[i]? = some { redirection := q } := by
  have hsome : ((ofRedirections longestFrame redirections).manager? q.namespaceName).isSome := by
    rw [manager?, List.findIdx?_isSome, List.any_eq_true]
    exact ⟨{ redirection := q }, List.mem_map_of_mem hq, beq_self_eq_true _⟩
  obtain ⟨i, hi⟩ := Option.isSome_iff_exists.mp hsome
  refine ⟨i, hi, ?_⟩
  obtain ⟨hlt, hfound, -⟩ := List.findIdx?_eq_some_iff_getElem.mp hi
  obtain ⟨p, hp, hmanager⟩ := List.mem_map.mp (List.getElem_mem hlt)
  rw [← hmanager, beq_iff_eq] at hfound
  rw [List.getElem?_eq_getElem hlt, ← hmanager, Redirection.eq_of_namespaceName h hp hq hfound]

theorem unused_ofTargets (h : Redirection.ofTargets targets = .ok redirections) :
    (ofRedirections longestFrame redirections).Unused targets where
  managed name := by
    rw [manager?, List.findIdx?_isSome, ofRedirections, List.any_map, List.any_eq_true]
    simp only [Function.comp_apply, beq_iff_eq, ← Target.isEnabled_iff]
    exact Redirection.exists_named_iff h
  built t ht henabled := by
    obtain ⟨q, hq, hof⟩ := Redirection.exists_of_enabled h ht (Target.isEnabled_iff.mpr henabled)
    obtain ⟨i, hi, hmanager⟩ := @manager?_ofRedirections targets redirections longestFrame h q hq
    obtain ⟨target, endpoint⟩ := q
    cases hof.1
    exact ⟨i, endpoint, hi, hof.parse, hmanager⟩
  idle m hm := by
    obtain ⟨q, -, rfl⟩ := List.mem_map.mp hm
    exact ⟨rfl, rfl⟩
  reports s := by
    rw [statuses_ofRedirections, List.mem_map]
    constructor
    · rintro ⟨q, hq, rfl⟩
      obtain ⟨t, ht, hof⟩ := (Redirection.mem_ofTargets h).mp hq
      refine ⟨t, ht, q.endpoint, Target.isEnabled_iff.mp hof.isEnabled, hof.parse, ?_⟩
      rw [← hof.1]
      rfl
    · rintro ⟨t, ht, e, henabled, hp, rfl⟩
      obtain ⟨q, hq, hof⟩ := Redirection.exists_of_enabled h ht (Target.isEnabled_iff.mpr henabled)
      cases hp.symm.trans hof.parse
      refine ⟨q, hq, ?_⟩
      rw [← hof.1]
      rfl
  ascending := names_ofRedirections ▸ Redirection.ascending_ofTargets h

end Hub

namespace Redirection

/-- **A list of targets is accepted exactly when each is sound and has a name of its own.** Then the
hub has a manager for each of the enabled ones, built from it and never used, and no other, and it
reports them in the order of the bytes of their names. Otherwise the list is refused for its first
offence: for what is wrong with that target by itself, or else because an earlier one has its name,
enabled or not. -/
theorem ofTargets_exact (targets : List Target) (longestFrame : Nat) :
    ((∃ redirections, ofTargets targets = .ok redirections) ↔
      (∀ t ∈ targets, t.Sound) ∧ (targets.map Target.namespaceName).Nodup) ∧
    (∀ redirections, ofTargets targets = .ok redirections →
      (Hub.ofRedirections longestFrame redirections).Unused targets ∧
      redirections.map namespaceName =
        (Hub.ofRedirections longestFrame redirections).statuses.map Status.namespaceName) ∧
    ∀ e, ofTargets targets = .error e ↔ ∃ i, Target.FirstOffence [] targets i e := by
  refine ⟨⟨?_, ?_⟩, fun redirections h => ⟨Hub.unused_ofTargets h, Hub.names_ofRedirections.symm⟩,
    fun e => collect_eq_error_iff⟩
  · rintro ⟨redirections, h⟩
    exact ⟨fun t ht => Target.sound_iff.mpr (exists_validate h ht), (names_of_collect h).1⟩
  · rintro ⟨hsound, hnodup⟩
    exact exists_collect hsound hnodup fun _ _ hn => by cases hn

/-- Two targets with endpoints, not in the order of their names, and a disabled one. -/
def outOfOrder : List Target := [⟨"b", "x:1", 5⟩, ⟨"off", " \u3000", 0⟩, ⟨"A2", "/s", 1⟩]

/-- The same, and then a target that repeats the disabled one, and one with a bad name. -/
def repeated : List Target := outOfOrder ++ [⟨"off", "", 0⟩, ⟨"3d", "/s", 1⟩]

theorem ofTargets_outOfOrder :
    (∃ redirections, ofTargets outOfOrder = .ok redirections ∧
      (Hub.ofRedirections 64 redirections).Unused outOfOrder ∧
      redirections.map namespaceName = ["A2", "b"]) ∧
    ∃ i, Target.FirstOffence [] repeated i (.duplicate "off") := by
  have haccepted : ofTargets outOfOrder =
      .ok [⟨⟨"A2", "/s", 1⟩, .ipc "/s"⟩, ⟨⟨"b", "x:1", 5⟩, .tcp "x:1"⟩] := by rfl
  have hrefused : ofTargets repeated = .error (.duplicate "off") := by rfl
  exact ⟨⟨_, haccepted, ((ofTargets_exact outOfOrder 64).2.1 _ haccepted).1, rfl⟩,
    ((ofTargets_exact repeated 64).2.2 _).mp hrefused⟩

end Redirection
end Switchboard.Redirect
