import Slr.Proofs.Parser.Frames

/-! # The calls that are open

`watch` does what `call` does and takes down each entry of a procedure: the calls
that are open at this moment, and the session. Without what was taken down it is
`call` (`watch_result`). The entries of a run are the moves of the table-driven
parser one by one, and at each of them the open calls are the stack: one call for
each state, with the values that the state sees. So a call that there is no room
for is a stack that is too high. -/

namespace Slr.Ascent

open StackParser

variable {g : Grammar} {follow : Lookahead} {t : Table} {semantics : Semantics}
  {fuel room limit n q : Nat} {v : Value} {stack below : Stack} {held : List Value}
  {outer calls : List Call} {r : Return} {s s' : Session} {o : Outcome Return} {c : Config}

/-- A call of a state's procedure, with the values it holds. -/
structure Call where
  state : Nat
  held : List Value

/-- An entry of a procedure: the calls that are open, the new one first, and the session. -/
structure Entry where
  calls : List Call
  session : Session

/-- The entries in a part of a run, and what it came to, if it ended within its fuel. -/
structure Watched where
  entries : List Entry
  result : Option (Outcome Return)

namespace Watched

def none : Watched := ⟨[], .none⟩

def done (o : Outcome Return) : Watched := ⟨[], some o⟩

def enter (e : Entry) (w : Watched) : Watched := ⟨e :: w.entries, w.result⟩

/-- Goes on with what a call has returned; an error is passed on. -/
def andThen (w : Watched) (k : Return → Session → Watched) : Watched :=
  match w.result with
  | some (.ok r, s) => ⟨w.entries ++ (k r s).entries, (k r s).result⟩
  | _ => w

end Watched

mutual

def watch (t : Table) (semantics : Semantics) :
    Nat → Nat → List Call → Nat → List Value → Session → Watched
  | 0, _, _, _, _, _ => .none
  | _ + 1, 0, _, _, _, s => .done (.error (.fault noRoom), s)
  | fuel + 1, room + 1, outer, q, held, s =>
    let calls := ⟨q, held⟩ :: outer
    .enter ⟨calls, s⟩ <| match opening t semantics q held s with
      | .done o => .done o
      | .call target held' s' =>
        (watch t semantics fuel room calls target held' s').andThen
          (watchSettle t semantics fuel room outer q held)
      | .settle r s' => watchSettle t semantics fuel room outer q held r s'

def watchSettle (t : Table) (semantics : Semantics) :
    Nat → Nat → List Call → Nat → List Value → Return → Session → Watched
  | 0, _, _, _, _, _, _ => .none
  | fuel + 1, room, outer, q, held, r, s =>
    match r with
    | .accepted v => .done (.ok (.accepted v), s)
    | .reduction ⟨name, value, pops + 1⟩ => .done (.ok (.reduction ⟨name, value, pops⟩), s)
    | .reduction ⟨name, value, 0⟩ =>
      match t.goto? q name with
      | none => .done (.error (.corrupt ("state " ++ toString q ++ " has no goto on " ++ name)), s)
      | some target =>
        (watch t semantics fuel room (⟨q, held⟩ :: outer) target
            (hold held value (t.depth target)) s).andThen
          (watchSettle t semantics fuel room outer q held)

end

/-! ## What was watched is the parser -/

theorem andThen_result (w : Watched) (q : Nat) (held : List Value)
    (k : Return → Session → Watched)
    (hk : ∀ r s, (k r s).result = settle t semantics fuel room q held r s) :
    (w.andThen k).result = resume t semantics fuel room q held w.result := by
  unfold Watched.andThen
  cases hw : w.result with
  | none => exact hw
  | some o =>
    obtain ⟨result, s⟩ := o
    cases result with
    | error e => exact hw
    | ok r => exact hk r s

theorem watched_result (t : Table) (semantics : Semantics) (fuel : Nat) :
    (∀ room outer q held s,
      (watch t semantics fuel room outer q held s).result = call t semantics fuel room q held s) ∧
    (∀ room outer q held r s,
      (watchSettle t semantics fuel room outer q held r s).result =
        settle t semantics fuel room q held r s) := by
  induction fuel with
  | zero =>
    constructor
    · intro room outer q held s
      rw [watch, call]
      rfl
    · intro room outer q held r s
      rw [watchSettle, settle]
      rfl
  | succ fuel ih =>
    obtain ⟨hcall, hsettle⟩ := ih
    constructor
    · intro room outer q held s
      cases room with
      | zero =>
        rw [watch, call_no_room]
        rfl
      | succ room =>
        rw [watch, call_succ]
        cases opening t semantics q held s with
        | done o => rfl
        | call target held' s' =>
          simp only [Watched.enter]
          rw [andThen_result _ q held _ (hsettle room outer q held), hcall]
        | settle r s' => exact hsettle room outer q held r s'
    · intro room outer q held r s
      cases r with
      | accepted v =>
        rw [watchSettle, settle_accepted]
        rfl
      | reduction r =>
        obtain ⟨name, value, pops⟩ := r
        cases pops with
        | succ pops =>
          rw [watchSettle, settle_return]
          rfl
        | zero =>
          rw [watchSettle]
          cases hgoto : t.goto? q name with
          | none =>
            rw [settle_corrupt hgoto]
            rfl
          | some target =>
            rw [settle_goto hgoto]
            simp only
            rw [andThen_result _ q held _ (hsettle room outer q held), hcall]

theorem watch_result (outer : List Call) :
    (watch t semantics fuel room outer q held s).result = call t semantics fuel room q held s :=
  (watched_result t semantics fuel).1 room outer q held s

/-! ## How far a run is watched -/

theorem andThen_unfinished {w : Watched} {k : Return → Session → Watched}
    (h : (w.andThen k).result = none) :
    (w.result = none ∧ (w.andThen k).entries = w.entries) ∨
      ∃ r s, w.result = some (.ok r, s) ∧ (k r s).result = none ∧
        (w.andThen k).entries = w.entries ++ (k r s).entries := by
  unfold Watched.andThen at h ⊢
  cases hw : w.result with
  | none => exact Or.inl ⟨rfl, rfl⟩
  | some o =>
    obtain ⟨result, s⟩ := o
    cases result with
    | error e =>
      simp only [hw] at h
      cases h
    | ok r =>
      simp only [hw] at h
      exact Or.inr ⟨r, s, rfl, h, rfl⟩

/-- A procedure that returns was entered. -/
theorem entries_pos (h : (watch t semantics fuel room outer q held s).result = some (.ok r, s')) :
    0 < (watch t semantics fuel room outer q held s).entries.length := by
  cases fuel with
  | zero =>
    rw [watch] at h
    cases h
  | succ fuel =>
    cases room with
    | zero =>
      rw [watch] at h
      cases h
    | succ room =>
      rw [watch]
      exact Nat.succ_pos _

/-- Where the fuel runs out, at least every second unit of it was spent on an entry. -/
theorem unfinished (t : Table) (semantics : Semantics) (fuel : Nat) :
    (∀ room outer q held s, (watch t semantics fuel room outer q held s).result = none →
      fuel ≤ 2 * (watch t semantics fuel room outer q held s).entries.length) ∧
    (∀ room outer q held r s, (watchSettle t semantics fuel room outer q held r s).result = none →
      fuel ≤ 2 * (watchSettle t semantics fuel room outer q held r s).entries.length + 1) := by
  induction fuel with
  | zero => exact ⟨fun _ _ _ _ _ _ => Nat.zero_le _, fun _ _ _ _ _ _ _ => Nat.zero_le _⟩
  | succ fuel ih =>
    obtain ⟨hwatch, hsettle⟩ := ih
    constructor
    · intro room outer q held s h
      cases room with
      | zero =>
        rw [watch] at h
        cases h
      | succ room =>
        rw [watch] at h ⊢
        cases hopened : opening t semantics q held s with
        | done o =>
          simp only [hopened] at h
          cases h
        | settle r s' =>
          simp only [hopened, Watched.enter, List.length_cons] at h ⊢
          have hfuel := hsettle room outer q held r s' h
          omega
        | call target held' s' =>
          simp only [hopened, Watched.enter, List.length_cons] at h ⊢
          rcases andThen_unfinished h with ⟨hnone, hentries⟩ | ⟨r, s₁, -, hnone, hentries⟩
          · have hfuel := hwatch _ _ _ _ _ hnone
            rw [hentries]
            omega
          · have hfuel := hsettle _ _ _ _ _ _ hnone
            rw [hentries, List.length_append]
            omega
    · intro room outer q held r s h
      cases r with
      | accepted v =>
        rw [watchSettle] at h
        cases h
      | reduction r =>
        obtain ⟨name, value, pops⟩ := r
        cases pops with
        | succ pops =>
          rw [watchSettle] at h
          cases h
        | zero =>
          rw [watchSettle] at h ⊢
          cases hgoto : t.goto? q name with
          | none =>
            simp only [hgoto] at h
            cases h
          | some target =>
            simp only [hgoto] at h ⊢
            rcases andThen_unfinished h with ⟨hnone, hentries⟩ | ⟨r, s₁, hsome, hnone, hentries⟩
            · have hfuel := hwatch _ _ _ _ _ hnone
              rw [hentries]
              omega
            · have hfuel := hsettle _ _ _ _ _ _ hnone
              have hpos := entries_pos hsome
              rw [hentries, List.length_append]
              omega

/-! ## The open calls are the stack -/

/-- The call of a state for each state of a stack, with as many of the last values up to
there as the state is deep. There are so many: each state but the lowest has a value. -/
inductive Mirrors (t : Table) : Stack → List Call → Prop
  | bottom (v : Value) : Mirrors t [(0, v)] [⟨0, []⟩]
  | push {stack : Stack} {calls : List Call} {q : Nat} {v : Value} (h : Mirrors t stack calls)
      (depth_le : t.depth q ≤ stack.length) :
      Mirrors t ((q, v) :: stack) (⟨q, topValues (t.depth q) ((q, v) :: stack)⟩ :: calls)

theorem Mirrors.states (h : Mirrors t stack calls) : calls.map Call.state = stack.map Prod.fst := by
  induction h with
  | bottom v => rfl
  | push _ _ ih => simp [ih]

/-- So many moves lead to what a procedure returned, or to a stack that is higher than
the limit and that no call was left for. -/
inductive Arrives (t : Table) (semantics : Semantics) (limit n : Nat) (c : Config)
    (below : Stack) : Outcome Return → Prop
  | returned {o : Outcome Return} {s' : Session}
      (moves : (next t semantics)^[n] c = (returned t below o.1, s')) (same : o.2.Same s')
      (fits : Fits t below o.1) : Arrives t semantics limit n c below o
  | refused {stack : Stack} {s s' : Session}
      (moves : (next t semantics)^[n] c = (.running stack, s')) (same : s.Same s')
      (high : limit < stack.length) : Arrives t semantics limit n c below (.error (.fault noRoom), s)

/-- Each entry is a move from `c` on, over the stack that its calls mirror; and what the
run came to is what so many moves lead to. -/
structure Tracks (t : Table) (semantics : Semantics) (limit : Nat) (c : Config) (below : Stack)
    (w : Watched) : Prop where
  entry : ∀ i e, w.entries[i]? = some e → ∃ stack s,
    (next t semantics)^[i] c = (.running stack, s) ∧ e.session.Same s ∧
      Mirrors t stack e.calls ∧ stack.length ≤ limit
  result : ∀ o, w.result = some o → Arrives t semantics limit w.entries.length c below o

namespace Arrives

/-- Moves that come before. -/
theorem after {c' : Config} {m : Nat} (h : Arrives t semantics limit n c' below o)
    (hmoves : (next t semantics)^[m] c = c') : Arrives t semantics limit (m + n) c below o := by
  subst hmoves
  cases h with
  | returned moves same fits =>
    exact .returned (by rw [Nat.add_comm, Function.iterate_add_apply, moves]) same fits
  | refused moves same high =>
    exact .refused (by rw [Nat.add_comm, Function.iterate_add_apply, moves]) same high

/-- An error is passed on, whatever is below. -/
theorem error {e : ParseError} (h : Arrives t semantics limit n c stack (.error e, s)) :
    Arrives t semantics limit n c below (.error e, s) := by
  cases h with
  | returned moves same => exact .returned moves same trivial
  | refused moves same high => exact .refused moves same high

end Arrives

namespace Tracks

variable {w : Watched} {k : Return → Session → Watched} {e : Entry}

theorem none : Tracks t semantics limit c below .none where
  entry := fun i e h => by simp [Watched.none] at h
  result := fun o h => by cases h

theorem done (h : Arrives t semantics limit 0 c below o) :
    Tracks t semantics limit c below (.done o) where
  entry := fun i e h => by simp [Watched.done] at h
  result := fun o' h' => by
    cases h'
    exact h

theorem enter (hsame : e.session.Same s') (hmirrors : Mirrors t stack e.calls)
    (hroom : stack.length ≤ limit)
    (h : Tracks t semantics limit (next t semantics (.running stack, s')) below w) :
    Tracks t semantics limit (.running stack, s') below (.enter e w) where
  entry := fun i e' he => by
    cases i with
    | zero =>
      cases he
      exact ⟨stack, s', rfl, hsame, hmirrors, hroom⟩
    | succ i => exact h.entry i e' he
  result := fun o ho => by
    have hafter := (h.result o ho).after (m := 1) (c := (.running stack, s')) rfl
    rwa [Nat.add_comm] at hafter

theorem andThen (h : Tracks t semantics limit c stack w)
    (hk : ∀ r s s', s.Same s' → Fits t stack (.ok r) →
      Tracks t semantics limit (returned t stack (.ok r), s') below (k r s)) :
    Tracks t semantics limit c below (w.andThen k) := by
  unfold Watched.andThen
  cases hw : w.result with
  | none =>
    refine ⟨h.entry, ?_⟩
    intro o ho
    rw [hw] at ho
    cases ho
  | some o =>
    have harrives := h.result o hw
    obtain ⟨result, s⟩ := o
    cases result with
    | error e =>
      refine ⟨h.entry, ?_⟩
      intro o ho
      rw [hw] at ho
      cases ho
      exact harrives.error
    | ok r =>
      cases harrives with
      | @returned _ s' hmoves hsame hfits =>
        obtain ⟨hentry, hresult⟩ := hk r s s' hsame hfits
        refine ⟨?_, ?_⟩
        · intro i e he
          by_cases hi : i < w.entries.length
          · exact h.entry i e (by rwa [List.getElem?_append_left hi] at he)
          · obtain ⟨j, rfl⟩ := Nat.exists_eq_add_of_le (Nat.le_of_not_lt hi)
            rw [List.getElem?_append_right (Nat.le_add_right _ _), Nat.add_sub_cancel_left] at he
            -- what comes behind the call starts where its moves have led
            rw [Nat.add_comm, Function.iterate_add_apply, hmoves]
            exact hentry j e he
        · intro o ho
          rw [List.length_append]
          exact (hresult o ho).after hmoves

end Tracks

/-- The stack that a reduction which has come back makes for the goto's procedure. -/
theorem returned_goto {name : String} {value : Value}
    (hfits : Fits t ((q, v) :: below) (.ok (.reduction ⟨name, value, 0⟩))) :
    ∃ target, t.goto? q name = some target ∧
      returned t ((q, v) :: below) (.ok (.reduction ⟨name, value, 0⟩)) =
        .running ((target, value) :: (q, v) :: below) := by
  obtain ⟨q', v', rest, target, hdrop, hgoto⟩ := hfits
  obtain ⟨⟨rfl, rfl⟩, rfl⟩ : (q = q' ∧ v = v') ∧ below = rest := by simpa using hdrop
  exact ⟨target, hgoto, by simp only [returned, List.drop_zero, push, hgoto]⟩

theorem Attends.goto (hr : t.Renders (Automaton.build g) follow) (h : Attends g t q v below held)
    {name : String} {target : Nat} (hgoto : t.goto? q name = some target) (value : Value) :
    Attends g t target value ((q, v) :: below) (hold held value (t.depth target)) :=
  h.call hr ((hr.goto q name).symm.trans hgoto) value

/-- A call that attends a stack mirrors its top, over calls that mirror what is below. -/
theorem Attends.mirrors (hr : t.Renders (Automaton.build g) follow)
    (h : Attends g t q v below held) (hbelow : Mirrors t below outer) :
    Mirrors t ((q, v) :: below) (⟨q, held⟩ :: outer) := by
  rw [h.held_eq]
  exact hbelow.push (h.depth_le hr)

theorem tracks (hr : t.Renders (Automaton.build g) follow) (semantics : Semantics)
    (limit fuel : Nat) :
    (∀ {room q v below held outer s s'}, below.length + room = limit →
      Attends g t q v below held → Mirrors t ((q, v) :: below) (⟨q, held⟩ :: outer) → s.Same s' →
      Tracks t semantics limit (.running ((q, v) :: below), s') below
        (watch t semantics fuel room outer q held s)) ∧
    (∀ {room q v below held outer r s s'}, below.length + 1 + room = limit →
      Attends g t q v below held → Mirrors t ((q, v) :: below) (⟨q, held⟩ :: outer) → s.Same s' →
      Fits t ((q, v) :: below) (.ok r) →
      Tracks t semantics limit (returned t ((q, v) :: below) (.ok r), s') below
        (watchSettle t semantics fuel room outer q held r s)) := by
  induction fuel with
  | zero =>
    constructor
    · intro room q v below held outer s s' _ _ _ _
      rw [watch]
      exact .none
    · intro room q v below held outer r s s' _ _ _ _ _
      rw [watchSettle]
      exact .none
  | succ fuel ih =>
    obtain ⟨hwatch, hsettle⟩ := ih
    constructor
    · intro room q v below held outer s s' hroom h hmirrors hsame
      cases room with
      | zero =>
        rw [watch]
        have hhigh : limit < below.length + 1 := by omega
        exact .done (.refused rfl hsame hhigh)
      | succ room =>
        have hopen : below.length + 1 + room = limit := by omega
        have hlow : below.length + 1 ≤ limit := by omega
        rw [watch]
        refine Tracks.enter (e := ⟨⟨q, held⟩ :: outer, s⟩) hsame hmirrors hlow ?_
        have hopens := opening_opens semantics hr h hsame
        generalize next t semantics (.running ((q, v) :: below), s') = c at hopens
        generalize opening t semantics q held s = opened at hopens
        cases hopens with
        | done same fits => exact .done (.returned rfl same fits)
        | call same attends =>
          exact (hwatch hopen attends (attends.mirrors hr hmirrors) same).andThen
            fun r s₁ s₂ hsame₁ hfits => hsettle hopen h hmirrors hsame₁ hfits
        | settle same fits => exact hsettle hopen h hmirrors same fits
    · intro room q v below held outer r s s' hroom h hmirrors hsame hfits
      cases r with
      | accepted value =>
        rw [watchSettle]
        exact .done (.returned (o := (.ok (.accepted value), s)) rfl hsame trivial)
      | reduction r =>
        obtain ⟨name, value, pops⟩ := r
        cases pops with
        | succ pops =>
          rw [watchSettle]
          exact .done (.returned (o := (.ok (.reduction ⟨name, value, pops⟩), s)) rfl hsame hfits)
        | zero =>
          obtain ⟨target, hgoto, hreturned⟩ := returned_goto hfits
          rw [watchSettle, hreturned]
          simp only [hgoto]
          have hattends := h.goto hr hgoto value
          exact (hwatch hroom hattends (hattends.mirrors hr hmirrors) hsame).andThen
            fun r s₁ s₂ hsame₁ hfits₁ => hsettle hroom h hmirrors hsame₁ hfits₁

/-- The entries of a parse that starts in this session, with at most `limit` calls open. -/
def entries (t : Table) (semantics : Semantics) (limit fuel : Nat) (s : Session) : List Entry :=
  (watch t semantics fuel limit [] 0 [] s).entries

/-- A parse that has not ended has an entry for every two units of its fuel. -/
theorem lt_entries_of_unfinished
    (h : (watch t semantics (2 * (n + 1)) limit [] 0 [] s).result = none) :
    n < (entries t semantics limit (2 * (n + 1)) s).length := by
  have hfuel := (unfinished t semantics (2 * (n + 1))).1 limit [] 0 [] s h
  rw [← entries] at hfuel
  omega

theorem tracks_parse (hr : t.Renders (Automaton.build g) follow) (semantics : Semantics)
    (limit fuel : Nat) (s : Session) :
    Tracks t semantics limit (.running bottom, s) [] (watch t semantics fuel limit [] 0 [] s) :=
  (tracks hr semantics limit fuel).1 (Nat.zero_add limit) (attends_bottom hr) (.bottom .none)
    (.refl s)

end Slr.Ascent
