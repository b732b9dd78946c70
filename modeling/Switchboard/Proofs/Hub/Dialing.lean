import Switchboard.Proofs.Hub.Changes
import Mathlib.Data.List.Nodup

/-! One dial at a time, and one connection.

While a dial of a manager is under way, the manager stays with it unless it is closed, and a
closed manager begins no other (`Orderly.flying`). So a connection that is not closed is the
one the manager holds, or the one that its dial has made and not handed over, or the last
one that was left to a closed manager (`Orderly.held`). -/
namespace Switchboard.Redirect

theorem getElem?_set_cases {α : Type} {l : List α} {i j : Nat} {a x : α}
    (h : (l.set i a)[j]? = some x) : (i = j ∧ x = a) ∨ (i ≠ j ∧ l[j]? = some x) := by
  rw [List.getElem?_set] at h
  split at h
  · rename_i hij
    split at h
    · exact .inl ⟨hij, (Option.some.inj h).symm⟩
    · cases h
  · rename_i hij
    exact .inr ⟨hij, h⟩

theorem getElem?_concat_cases {α : Type} {l : List α} {j : Nat} {a x : α}
    (h : (l ++ [a])[j]? = some x) : l[j]? = some x ∨ (j = l.length ∧ x = a) := by
  rcases Nat.lt_trichotomy j l.length with hj | rfl | hj
  · rw [List.getElem?_append_left hj] at h
    exact .inl h
  · rw [List.getElem?_concat_length] at h
    exact .inr ⟨rfl, (Option.some.inj h).symm⟩
  · rw [List.getElem?_eq_none (by simpa using Nat.succ_le_of_lt hj)] at h
    cases h

namespace Course
open Hub

variable {s s' : Course} {a : Act} {es : List Notice} {i d c : Nat} {m : Manager}

/-! ### What dials have made -/

theorem mem_of_made? (h : s.made? d = some c) : (d, c) ∈ s.made := by
  obtain ⟨p, hp, rfl⟩ := Option.map_eq_some_iff.mp h
  have hd : (p.1 == d) = true := List.find?_some (p := fun p : Nat × Nat => p.1 == d) hp
  rw [← eq_of_beq hd]
  exact List.mem_of_find?_eq_some hp

theorem made?_none (h : s.made? d = none) (c : Nat) : (d, c) ∉ s.made := by
  intro hm
  have := List.find?_eq_none.mp (Option.map_eq_none_iff.mp h) _ hm
  simp at this

/-- A dial of the manager has made the connection, and it is not closed. -/
structure Live (s : Course) (i d c : Nat) : Prop where
  made : (d, c) ∈ s.made
  mine : ∃ o, s.hub.fates[d]? = some (i, o)
  open_ : s.hub.isClosed c = false

theorem Live.back (h : Live s' i d c) (hm : s'.made = s.made)
    (hf : ∀ o, s'.hub.fates[d]? = some (i, o) → ∃ o', s.hub.fates[d]? = some (i, o'))
    (hl : Lasts s.hub s'.hub) : Live s i d c where
  made := hm ▸ h.made
  mine := by
    obtain ⟨o, ho⟩ := h.mine
    exact hf o ho
  open_ := by
    cases hc : s.hub.isClosed c with
    | false => rfl
    | true => exact absurd (hl.closed c hc) (by rw [h.open_]; simp)

/-! ### The invariant -/

structure Orderly (s : Course) : Prop where
  /-- The dial a manager waits for is its own, and under way. -/
  dialing : ∀ i d, s.hub.state? i = some (.dialing d) → s.hub.Flies i d
  /-- A manager waits for its dial that is under way, or is closed. -/
  flying : ∀ i d, s.hub.Flies i d →
    s.hub.state? i = some (.dialing d) ∨ s.hub.state? i = some .closed
  alone : ∀ i d d', s.hub.Flies i d → s.hub.Flies i d' → d = d'
  dials : (s.made.map Prod.fst).Nodup
  known : ∀ d c, (d, c) ∈ s.made → d < s.hub.fates.length ∧ c < s.hub.connections.length
  resolved : ∀ (i d c : Nat), s.hub.fates[d]? = some (i, some (.ok c)) → (d, c) ∈ s.made
  ready : ∀ i c, s.hub.state? i = some (.ready c) → c < s.hub.connections.length
  /-- A connection that is not closed is in the hands of its manager or of the dial that made
  it, until the manager is closed. -/
  held : ∀ i d c, s.Live i d c → s.hub.state? i = some (.ready c) ∨
    s.hub.state? i = some (.dialing d) ∨ s.hub.state? i = some .closed
  /-- While a dial is under way, there is no connection that another one has made. -/
  first : ∀ i d d' c, s.hub.Flies i d → s.Live i d' c → d' = d
  single : ∀ i d d' c c', s.Live i d c → s.Live i d' c' → d = d'

theorem orderly_opened (longestFrame : Nat) (redirections : List Redirection) :
    Orderly (.opened longestFrame redirections) := by
  have hidle (i : Nat) (st : Manager.State)
      (hs : (opened longestFrame redirections).hub.state? i = some st) : st = .idle := by
    simp only [opened, ofRedirections, Hub.state?, List.getElem?_map, Option.map_eq_some_iff] at hs
    obtain ⟨m, ⟨r, _, rfl⟩, rfl⟩ := hs
    rfl
  have hlive (i d c : Nat) : ¬Live (opened longestFrame redirections) i d c := fun h => by
    cases h.made
  have hflies (i d : Nat) : ¬(opened longestFrame redirections).hub.Flies i d := fun h => by
    cases h
  constructor
  case dialing => exact fun i d hs => by cases hidle i _ hs
  case flying => exact fun _ _ h => absurd h (hflies _ _)
  case alone => exact fun _ _ _ h => absurd h (hflies _ _)
  case dials => exact .nil
  case known => exact fun _ _ h => by cases h
  case resolved => exact fun _ _ _ h => by cases h
  case ready => exact fun i c hs => by cases hidle i _ hs
  case held => exact fun _ _ _ h => absurd h (hlive _ _ _)
  case first => exact fun _ _ _ _ _ h => absurd h (hlive _ _ _)
  case single => exact fun _ _ _ _ _ h => absurd h (hlive _ _ _)

theorem Orderly.owned (h : Orderly s) : s.hub.Owned := by
  intro i d hf
  have hsome : (s.hub.state? i).isSome := by
    rcases h.flying i d hf with hs | hs <;> rw [hs] <;> rfl
  by_contra hi
  rw [state?, List.getElem?_eq_none (Nat.le_of_not_lt hi)] at hsome
  cases hsome

/-- What one dial has made is one connection. -/
theorem Orderly.made_eq {c' : Nat} (h : Orderly s) (hc : (d, c) ∈ s.made) (hc' : (d, c') ∈ s.made) :
    c = c' := by
  have := List.inj_on_of_nodup_map h.dials hc hc' rfl
  exact congrArg Prod.snd this

/-- A manager that lacks a connection has no dial under way and nothing open. -/
theorem Orderly.lacks (h : Orderly s) (hm : s.hub.managers[i]? = some m) (hs : s.hub.Lacks m) :
    (∀ d, ¬s.hub.Flies i d) ∧ ∀ d c, ¬s.Live i d c := by
  have hstate := state?_eq hm
  refine ⟨fun d hf => ?_, fun d c hl => ?_⟩
  · have := h.flying i d hf
    rcases hs with hs | ⟨c, hs, _⟩ <;> simp [hstate, hs] at this
  · have := h.held i d c hl
    rcases hs with hs | ⟨c', hs, hc⟩ <;> simp [hstate, hs] at this
    rw [this, hl.open_] at hc
    cases hc

/-! ### What every act preserves -/

/-- No dial has begun, and no connection was made. -/
structure Lessens (s s' : Course) : Prop where
  made : s'.made = s.made
  length : s'.hub.fates.length = s.hub.fates.length
  lasts : Lasts s.hub s'.hub
  flies : ∀ i d, s'.hub.Flies i d → s.hub.Flies i d
  mine : ∀ (i d : Nat) o, s'.hub.fates[d]? = some (i, o) → ∃ o', s.hub.fates[d]? = some (i, o')

theorem Lessens.of_fates (hm : s'.made = s.made) (hf : s'.hub.fates = s.hub.fates)
    (hl : Lasts s.hub s'.hub) : Lessens s s' where
  made := hm
  length := by rw [hf]
  lasts := hl
  flies _ _ := (flies_congr hf).mp
  mine _ _ o ho := ⟨o, hf ▸ ho⟩

theorem Lessens.live (h : Lessens s s') (hl : s'.Live i d c) : s.Live i d c :=
  hl.back h.made (h.mine i d) h.lasts

/-- Then only what concerns the states of the managers has to be shown. -/
theorem Orderly.lessens (h : Orderly s) (hs : Lessens s s')
    (dialing : ∀ i d, s'.hub.state? i = some (.dialing d) → s'.hub.Flies i d)
    (flying : ∀ i d, s'.hub.Flies i d →
      s'.hub.state? i = some (.dialing d) ∨ s'.hub.state? i = some .closed)
    (resolved : ∀ (i d c : Nat), s'.hub.fates[d]? = some (i, some (.ok c)) → (d, c) ∈ s.made)
    (ready : ∀ i c, s'.hub.state? i = some (.ready c) → c < s.hub.connections.length)
    (held : ∀ i d c, s.Live i d c → s'.hub.state? i = some (.ready c) ∨
      s'.hub.state? i = some (.dialing d) ∨ s'.hub.state? i = some .closed) : Orderly s' where
  dialing := dialing
  flying := flying
  alone i d d' hf hf' := h.alone i d d' (hs.flies i d hf) (hs.flies i d' hf')
  dials := hs.made ▸ h.dials
  known d c hm := by
    rw [hs.length, hs.lasts.length]
    exact h.known d c (hs.made ▸ hm)
  resolved i d c hf := hs.made ▸ resolved i d c hf
  ready i c hr := hs.lasts.length ▸ ready i c hr
  held i d c hl := held i d c (hs.live hl)
  first i d d' c hf hl := h.first i d d' c (hs.flies i d hf) (hs.live hl)
  single i d d' c c' hl hl' := h.single i d d' c c' (hs.live hl) (hs.live hl')

theorem Orderly.steady (h : Orderly s) (hs : Steady s s') : Orderly s' := by
  have hstate := state?_congr hs.managers
  have hflies (i d : Nat) : s'.hub.Flies i d ↔ s.hub.Flies i d := flies_congr hs.fates
  refine h.lessens (.of_fates hs.made hs.fates hs.lasts) ?dialing ?flying ?resolved ?ready ?held
  case dialing => exact fun i d hd => (hflies i d).mpr (h.dialing i d (hstate i ▸ hd))
  case flying => exact fun i d hf => hstate i ▸ h.flying i d ((hflies i d).mp hf)
  case resolved => exact fun i d c hf => h.resolved i d c (hs.fates ▸ hf)
  case ready => exact fun i c hr => h.ready i c (hstate i ▸ hr)
  case held => exact fun i d c hl => hstate i ▸ h.held i d c hl

theorem Orderly.begins (h : Orderly s) (hm : s.hub.managers[i]? = some m) (hs : s.hub.Lacks m)
    (hb : Begins s.hub s'.hub i m) (hmade : s'.made = s.made) : Orderly s' := by
  obtain ⟨hnone, hdead⟩ := h.lacks hm hs
  have hlen := length_fates s.hub
  have hself : s'.hub.state? i = some (.dialing s.hub.dials.length) := state?_self hm hb.managers
  have hother {j : Nat} (hj : i ≠ j) := state?_ne hj hb.managers
  have hold {d : Nat} (hd : d < s.hub.fates.length) : s'.hub.fates[d]? = s.hub.fates[d]? := by
    rw [hb.fates, List.getElem?_append_left hd]
  have hflies (j d : Nat) (hf : s'.hub.Flies j d) :
      (i ≠ j ∧ s.hub.Flies j d) ∨ (j = i ∧ d = s.hub.dials.length) := by
    rw [Flies, hb.fates] at hf
    rcases getElem?_concat_cases hf with hf | ⟨hd, hx⟩
    · exact .inl ⟨fun hij => hnone d (hij ▸ hf), hf⟩
    · cases hx
      exact .inr ⟨rfl, hd.trans hlen⟩
  have hlive (j d c : Nat) (hl : s'.Live j d c) : i ≠ j ∧ s.Live j d c := by
    have hd := (h.known d c (hmade ▸ hl.made)).1
    have hl := hl.back hmade (fun o ho => ⟨o, hold hd ▸ ho⟩) (.of_eq hb.connections)
    exact ⟨fun hij => hdead d c (hij ▸ hl), hl⟩
  constructor
  case dialing =>
    intro j d hd
    by_cases hj : i = j
    · subst hj
      cases hself.symm.trans hd
      rw [Flies, hb.fates, ← hlen, List.getElem?_concat_length]
    · have hf := h.dialing j d (hother hj ▸ hd)
      exact (hold (List.getElem?_eq_some_iff.mp hf).1).trans hf
  case flying =>
    intro j d hf
    rcases hflies j d hf with ⟨hj, hf⟩ | ⟨rfl, rfl⟩
    · exact hother hj ▸ h.flying j d hf
    · exact .inl hself
  case alone =>
    intro j d d' hf hf'
    rcases hflies j d hf with ⟨hj, hf⟩ | ⟨rfl, rfl⟩ <;>
      rcases hflies _ d' hf' with ⟨hj', hf'⟩ | ⟨he, rfl⟩
    · exact h.alone j d d' hf hf'
    · exact absurd he.symm hj
    · exact absurd rfl hj'
    · rfl
  case dials => exact hmade ▸ h.dials
  case known =>
    intro d c hp
    have := h.known d c (hmade ▸ hp)
    rw [hb.fates, hb.connections, List.length_append]
    exact ⟨by omega, this.2⟩
  case resolved =>
    intro j d c hf
    rw [hb.fates] at hf
    rw [hmade]
    rcases getElem?_concat_cases hf with hf | ⟨_, hx⟩
    · exact h.resolved j d c hf
    · cases hx
  case ready =>
    intro j c hr
    rw [hb.connections]
    by_cases hj : i = j
    · subst hj
      cases hself.symm.trans hr
    · exact h.ready j c (hother hj ▸ hr)
  case held =>
    intro j d c hl
    obtain ⟨hj, hl⟩ := hlive j d c hl
    exact hother hj ▸ h.held j d c hl
  case first =>
    intro j d d' c hf hl
    obtain ⟨hj, hl⟩ := hlive j d' c hl
    rcases hflies j d hf with ⟨_, hf⟩ | ⟨he, _⟩
    · exact h.first j d d' c hf hl
    · exact absurd he.symm hj
  case single =>
    exact fun j d d' c c' hl hl' =>
      h.single j d d' c c' (hlive j d c hl).2 (hlive j d' c' hl').2

theorem Orderly.connects {k : Connection} (h : Orderly s) (hd : s.hub.Underway d)
    (hnone : s.made? d = none) (hm : s'.hub.managers = s.hub.managers)
    (hf : s'.hub.fates = s.hub.fates) (hc : s'.hub.connections = s.hub.connections ++ [k])
    (hmade : s'.made = s.made ++ [(d, s.hub.connections.length)]) : Orderly s' := by
  obtain ⟨i, hflies⟩ := underway_iff.mp hd
  have hstate := state?_congr hm
  have hsame (j d' : Nat) : s'.hub.Flies j d' ↔ s.hub.Flies j d' := flies_congr hf
  have hlen : s'.hub.connections.length = s.hub.connections.length + 1 := by
    rw [hc, List.length_append, List.length_singleton]
  -- a connection that is not closed is the new one or was not closed before
  have hlive (j d' c : Nat) (hl : s'.Live j d' c) :
      s.Live j d' c ∨ (j = i ∧ d' = d ∧ c = s.hub.connections.length) := by
    obtain ⟨hp, ⟨o, ho⟩, hopen⟩ := hl
    rw [hf] at ho
    rw [hmade] at hp
    rcases List.mem_append.mp hp with hp | hp
    · refine .inl ⟨hp, ⟨o, ho⟩, ?_⟩
      rwa [isClosed, hc, List.getElem?_append_left (h.known d' c hp).2] at hopen
    · cases List.mem_singleton.mp hp
      cases hflies.symm.trans ho
      exact .inr ⟨rfl, rfl, rfl⟩
  constructor
  case dialing => exact fun j d' hs => (hsame j d').mpr (h.dialing j d' (hstate j ▸ hs))
  case flying => exact fun j d' hs => hstate j ▸ h.flying j d' ((hsame j d').mp hs)
  case alone =>
    exact fun j d' d'' hs hs' => h.alone j d' d'' ((hsame j d').mp hs) ((hsame j d'').mp hs')
  case dials =>
    have hnew : d ∉ s.made.map Prod.fst := fun hmem => by
      obtain ⟨⟨_, c⟩, hp, rfl⟩ := List.mem_map.mp hmem
      exact made?_none hnone c hp
    rw [hmade, List.map_append, List.map_singleton]
    exact h.dials.append (List.nodup_singleton d) (List.disjoint_singleton.mpr hnew)
  case known =>
    intro d' c hp
    rw [hf, hlen]
    rw [hmade] at hp
    rcases List.mem_append.mp hp with hp | hp
    · have := h.known d' c hp
      omega
    · cases List.mem_singleton.mp hp
      exact ⟨(List.getElem?_eq_some_iff.mp hflies).1, Nat.lt_succ_self _⟩
  case resolved =>
    intro j d' c hs
    rw [hmade]
    exact List.mem_append_left _ (h.resolved j d' c (hf ▸ hs))
  case ready =>
    intro j c hr
    rw [hlen]
    exact Nat.lt_succ_of_lt (h.ready j c (hstate j ▸ hr))
  case held =>
    intro j d' c hl
    rw [hstate j]
    rcases hlive j d' c hl with hl | ⟨rfl, rfl, rfl⟩
    · exact h.held j d' c hl
    · exact .inr (h.flying _ _ hflies)
  case first =>
    intro j d₁ d' c hs hl
    have hs := (hsame j d₁).mp hs
    rcases hlive j d' c hl with hl | ⟨rfl, rfl, -⟩
    · exact h.first j d₁ d' c hs hl
    · exact h.alone _ _ _ hflies hs
  case single =>
    intro j d₁ d₂ c c' hl hl'
    rcases hlive j d₁ c hl with hl | ⟨rfl, rfl, -⟩ <;>
      rcases hlive _ d₂ c' hl' with hl' | ⟨he, rfl, -⟩
    · exact h.single j d₁ d₂ c c' hl hl'
    · subst he
      exact h.first _ _ _ _ hflies hl
    · exact (h.first _ _ _ _ hflies hl').symm
    · rfl

theorem Orderly.closes (h : Orderly s) (hm : s.hub.managers[i]? = some m)
    (hc : Closes s.hub s'.hub i m) (hmade : s'.made = s.made) : Orderly s' := by
  have hself : s'.hub.state? i = some .closed := state?_self hm hc.managers
  have hother {j : Nat} (hj : i ≠ j) := state?_ne hj hc.managers
  have hflies (j d : Nat) : s'.hub.Flies j d ↔ s.hub.Flies j d := flies_congr hc.fates
  refine h.lessens (.of_fates hmade hc.fates hc.lasts) ?dialing ?flying ?resolved ?ready ?held
  case dialing =>
    intro j d hd
    by_cases hj : i = j
    · subst hj
      cases hself.symm.trans hd
    · exact (hflies j d).mpr (h.dialing j d (hother hj ▸ hd))
  case flying =>
    intro j d hf
    by_cases hj : i = j
    · exact .inr (hj ▸ hself)
    · exact hother hj ▸ h.flying j d ((hflies j d).mp hf)
  case resolved => exact fun j d c hf => h.resolved j d c (hc.fates ▸ hf)
  case ready =>
    intro j c hr
    by_cases hj : i = j
    · subst hj
      cases hself.symm.trans hr
    · exact h.ready j c (hother hj ▸ hr)
  case held =>
    intro j d c hl
    by_cases hj : i = j
    · exact .inr (.inr (hj ▸ hself))
    · exact hother hj ▸ h.held j d c hl

/-- How a manager stands after its dial has ended with an outcome. -/
inductive Ended (s s' : Course) (d i : Nat) : Except ForwardError Nat → Prop
  | kept {c : Nat} (hc : s.made? d = some c) (hs : s'.hub.state? i = some (.ready c)) :
      Ended s s' d i (.ok c)
  | failed {e : ForwardError} (hc : s.made? d = none) (hs : s'.hub.state? i = some .idle) :
      Ended s s' d i (.error e)
  | late (hs : s'.hub.state? i = some .closed) : Ended s s' d i (.error .closed)

theorem Orderly.ended {reason : String} (h : Orderly s) (hf : s.hub.Flies i d)
    (hm : s.hub.managers[i]? = some m) (he : Ends s.hub s'.hub d i m (s.result d reason)) :
    ∃ o, s'.hub.fates = s.hub.fates.set d (i, some o) ∧ Lasts s.hub s'.hub ∧
      (∀ j, i ≠ j → s'.hub.state? j = s.hub.state? j) ∧ Ended s s' d i o := by
  unfold result at he
  cases hmade : s.made? d with
  | some c =>
    rw [hmade] at he
    cases he with
    | kept hs managers fates connections =>
      exact ⟨_, fates, .of_eq connections, fun j hj => state?_ne hj managers,
        .kept hmade (state?_self hm managers)⟩
    | late hs managers fates lasts closed =>
      refine ⟨_, fates, lasts, fun j _ => state?_congr managers j, .late ?_⟩
      rw [state?_congr managers]
      exact (h.flying i d hf).resolve_left fun hd => hs d (by simpa [state?_eq hm] using hd)
  | none =>
    rw [hmade] at he
    cases he with
    | failed hs managers fates connections =>
      exact ⟨_, fates, .of_eq connections, fun j hj => state?_ne hj managers,
        .failed hmade (state?_self hm managers)⟩
    | late hs managers fates lasts closed =>
      refine ⟨_, fates, lasts, fun j _ => state?_congr managers j, .late ?_⟩
      rw [state?_congr managers]
      exact (h.flying i d hf).resolve_left fun hd => hs d (by simpa [state?_eq hm] using hd)

theorem Orderly.ends {reason : String} (h : Orderly s) (hf : s.hub.Flies i d)
    (hm : s.hub.managers[i]? = some m) (he : Ends s.hub s'.hub d i m (s.result d reason))
    (hmade : s'.made = s.made) : Orderly s' := by
  obtain ⟨o, hfates, hlasts, hother, hend⟩ := h.ended hf hm he
  have hflies (j d₁ : Nat) (hs : s'.hub.Flies j d₁) : i ≠ j ∧ s.hub.Flies j d₁ := by
    rw [Flies, hfates] at hs
    rcases getElem?_set_cases hs with ⟨_, hx⟩ | ⟨hd, hs⟩
    · cases hx
    · exact ⟨fun hij => hd (h.alone i d d₁ hf (hij ▸ hs)), hs⟩
  have hless : Lessens s s' := by
    refine ⟨hmade, by rw [hfates, List.length_set], hlasts, fun j d₁ hs => (hflies j d₁ hs).2, ?_⟩
    intro j d₁ o' ho
    rw [hfates] at ho
    rcases getElem?_set_cases ho with ⟨rfl, hx⟩ | ⟨_, ho⟩
    · cases hx
      exact ⟨none, hf⟩
    · exact ⟨o', ho⟩
  refine h.lessens hless ?dialing ?flying ?resolved ?ready ?held
  case dialing =>
    intro j d₁ hd
    by_cases hj : i = j
    · subst hj
      cases hend with
      | kept _ hs => cases hs.symm.trans hd
      | failed _ hs => cases hs.symm.trans hd
      | late hs => cases hs.symm.trans hd
    · have hold := h.dialing j d₁ (hother j hj ▸ hd)
      have hne : d ≠ d₁ := fun hdd => by
        subst hdd
        cases hf.symm.trans hold
        exact hj rfl
      rw [Flies, hfates, List.getElem?_set_ne hne]
      exact hold
  case flying =>
    intro j d₁ hs
    obtain ⟨hj, hs⟩ := hflies j d₁ hs
    exact hother j hj ▸ h.flying j d₁ hs
  case resolved =>
    intro j d₁ c hs
    rw [hfates] at hs
    rcases getElem?_set_cases hs with ⟨rfl, hx⟩ | ⟨_, hs⟩
    · cases hx
      cases hend with
      | kept hc => exact mem_of_made? hc
    · exact h.resolved j d₁ c hs
  case ready =>
    intro j c hr
    by_cases hj : i = j
    · subst hj
      cases hend with
      | kept hc hs =>
        cases hs.symm.trans hr
        exact (h.known d c (mem_of_made? hc)).2
      | failed _ hs => cases hs.symm.trans hr
      | late hs => cases hs.symm.trans hr
    · exact h.ready j c (hother j hj ▸ hr)
  case held =>
    intro j d₁ c hl
    by_cases hj : i = j
    · subst hj
      cases h.first i d d₁ c hf hl
      cases hend with
      | kept hc hs =>
        rw [h.made_eq hl.made (mem_of_made? hc)]
        exact .inl hs
      | failed hc => exact absurd hl.made (made?_none hc c)
      | late hs => exact .inr (.inr hs)
    · exact hother j hj ▸ h.held j d₁ c hl

theorem Orderly.changes (h : Orderly s) (hc : Changes s a s' es) : Orderly s' := by
  cases hc with
  | steady hs => exact h.steady hs
  | begins hm hs hb hmade => exact h.begins hm hs hb hmade
  | connects hd hnone hm hf _ hc hmade => exact h.connects hd hnone hm hf hc hmade
  | ends hf hm he hmade => exact h.ends hf hm he hmade
  | closes hm hc hmade => exact h.closes hm hc hmade

end Course
end Switchboard.Redirect
