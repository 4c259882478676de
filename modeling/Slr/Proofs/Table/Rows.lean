import Mathlib.Data.List.ModifyLast
import Slr.Proofs.Table.Exactness
import Slr.Table.Builder

/-! # Rows that are closed stay as they are

Any calls of a builder, in any order and whether they fail or not, only add rows behind
those that are there. Actions are never touched again. Gotos are neither, but for the last
row: while no row is open, votes are refused, and gotos are not; they go to the row that was
closed last, until another one is opened. -/

namespace Slr

namespace Builder

/-- A call of a builder. -/
inductive Call where
  | newRow (state : Int)
  | shift (terminal : String) (state : Nat) (item : Item)
  | reduce (terminal : String) (item : Item)
  | accept (terminal : String) (item : Item)
  | goto (name : String) (state : Nat)
  | flush

namespace Call

def isVote : Call → Bool
  | shift .. | reduce .. | accept .. => true
  | newRow _ | goto .. | flush => false

def isNewRow : Call → Bool
  | newRow _ => true
  | shift .. | reduce .. | accept .. | goto .. | flush => false

end Call

/-- What a step leaves and gives: nothing, or that it failed. -/
def Step.answer (s : Step) : Builder × Except Error (Option Table) :=
  (s.1, s.2.elim (.ok none) .error)

/-- The builder after a call, and what the call gives. -/
def use (b : Builder) : Call → Builder × Except Error (Option Table)
  | .newRow state => (b.newRow state).answer
  | .shift terminal state item => (b.shift terminal state item).answer
  | .reduce terminal item => (b.reduce terminal item).answer
  | .accept terminal item => (b.accept terminal item).answer
  | .goto name state => (b.goto name state).answer
  | .flush => (b.flush.1, b.flush.2.map some)

/-- The builder after some calls, those that fail among them. -/
def after (b : Builder) (calls : List Call) : Builder := calls.foldl (fun b c => (b.use c).1) b

/-- The goto that a call adds to the last closed row. -/
def stray (b : Builder) (c : Call) : GotoRow :=
  match b.current, c with
  | none, .goto name state => if (b.gotoRow.lookup name).isSome then [] else [(name, state)]
  | _, _ => []

/-- The gotos that calls add to the last closed row, before they open another. -/
def strays (b : Builder) : List Call → GotoRow
  | [] => []
  | c :: calls => if b.current.isSome then [] else b.stray c ++ (b.use c).1.strays calls

end Builder

/-- More gotos at the end of the last row. -/
def GotoRow.amend (rows : List GotoRow) (extra : GotoRow) : List GotoRow :=
  rows.modifyLast (· ++ extra)

/-- A table with more gotos at the end of its last row. -/
def Table.amend (t : Table) (extra : GotoRow) : Table := { t with gotos := GotoRow.amend t.gotos extra }

namespace GotoRow

variable {rows : List GotoRow} {row extra more : GotoRow}

@[simp] theorem amend_nil (rows : List GotoRow) : amend rows [] = rows := by
  rcases List.eq_nil_or_concat rows with rfl | ⟨init, last, rfl⟩
  · rfl
  · simp [amend, List.modifyLast_concat]

@[simp] theorem amend_empty (extra : GotoRow) : amend [] extra = [] := rfl

@[simp] theorem length_amend (rows : List GotoRow) (extra : GotoRow) :
    (amend rows extra).length = rows.length := by
  rcases List.eq_nil_or_concat rows with rfl | ⟨init, last, rfl⟩
  · rfl
  · simp [amend, List.modifyLast_concat]

@[simp] theorem amend_concat : amend (rows ++ [row]) extra = rows ++ [row ++ extra] := by
  rw [amend, List.modifyLast_concat]

theorem amend_append (rows : List GotoRow) (extra more : GotoRow) :
    amend rows (extra ++ more) = amend (amend rows extra) more := by
  rcases List.eq_nil_or_concat rows with rfl | ⟨init, last, rfl⟩
  · rfl
  · simp

end GotoRow

namespace Builder

variable {b c : Builder} {call : Call} {calls : List Call} {e : Error} {t : Table}

@[simp] theorem after_nil (b : Builder) : b.after [] = b := rfl

@[simp] theorem after_cons (b : Builder) (call : Call) (calls : List Call) :
    b.after (call :: calls) = (b.use call).1.after calls := rfl

theorem stray_of_open (h : b.current.isSome = true) (call : Call) : b.stray call = [] := by
  obtain ⟨state, hstate⟩ := Option.isSome_iff_exists.mp h
  simp [stray, hstate]

theorem strays_of_open (h : b.current.isSome = true) (calls : List Call) : b.strays calls = [] := by
  cases calls with
  | nil => rfl
  | cons call calls => rw [strays, if_pos h]

/-! ## The state between calls -/

/-- There are as many rows of either kind, the open row is the one behind them, and there is
always a last row to which gotos go, but in the beginning. -/
structure Ordered (b : Builder) : Prop where
  lengths : b.actions.length = b.gotos.length
  opened : ∀ state, b.current = some state → b.gotoRowClosed = false ∧ state = b.actions.length
  first : b.current = none → b.gotoRowClosed = false → b.gotos = []

theorem ordered_ofAutomaton (a : Automaton) : (ofAutomaton a).Ordered where
  lengths := rfl
  opened := by simp [ofAutomaton]
  first := by simp [ofAutomaton, gotos]

/-- What becomes of the rows: those that were there stay, but for more gotos in the last one. -/
inductive Becomes (b b' : Builder) (extra : GotoRow) : Prop where
  /-- The row that was open is still open, or none was and none is. -/
  | stays (hcurrent : b'.current.isSome = b.current.isSome) (hactions : b'.actions = b.actions)
    (hgotos : b'.gotos = GotoRow.amend b.gotos extra)
  /-- The open row is closed, and another may be opened. -/
  | closes (hcurrent : b.current.isSome = true) (hextra : extra = []) (row : Row) (gotoRow : GotoRow)
    (hactions : b'.actions = b.actions ++ [row]) (hgotos : b'.gotos = b.gotos ++ [gotoRow])
  /-- None was open, and one is opened. -/
  | opens (hcurrent : b.current = none) (hopened : b'.current.isSome = true) (hextra : extra = [])
    (hactions : b'.actions = b.actions) (hgotos : b'.gotos = b.gotos)

namespace Becomes

variable {b b' : Builder} {extra : GotoRow}

theorem refl (b : Builder) : Becomes b b [] := .stays rfl rfl (GotoRow.amend_nil _).symm

theorem lengths (h : Becomes b b' extra) (hlengths : b.actions.length = b.gotos.length) :
    b'.actions.length = b'.gotos.length := by
  cases h with
  | stays _ hactions hgotos => rw [hactions, hgotos, GotoRow.length_amend, hlengths]
  | closes _ _ _ _ hactions hgotos => simp [hactions, hgotos, hlengths]
  | opens _ _ _ hactions hgotos => rw [hactions, hgotos, hlengths]

theorem actions_prefix (h : Becomes b b' extra) : b.actions <+: b'.actions := by
  cases h with
  | stays _ hactions => exact hactions ▸ List.prefix_refl _
  | closes _ _ _ _ hactions => exact hactions ▸ List.prefix_append _ _
  | opens _ _ _ hactions => exact hactions ▸ List.prefix_refl _

end Becomes

/-! ## What one call does -/

/-- Closing an open row puts it behind the others; if none is open, nothing happens. -/
theorem closeRow_eq_ok (h : b.closeRow = .ok c) : (b.current = none ∧ c = b) ∨
    ∃ state found, b.current = some state ∧
      c = { b with
            actions := b.actions ++ [b.votes.settled]
            gotoRowClosed := true
            current := none
            conflicts := b.conflicts ++ found } := by
  unfold closeRow at h
  split at h
  · rename_i hcurrent
    exact Or.inl ⟨hcurrent, (Except.ok.inj h).symm⟩
  · rename_i state hcurrent
    split at h
    · cases h
    · cases hfound : b.rowConflicts state with
      | error e => simp [hfound, Except.map] at h
      | ok found =>
        rw [hfound] at h
        exact Or.inr ⟨state, found, hcurrent, (Except.ok.inj h).symm⟩

theorem closeRow_of_current (h : b.current = none) : b.closeRow = .ok b := by
  simp [closeRow, h]

namespace Ordered

theorem gotos_of_current (h : b.Ordered) (hcurrent : b.current.isSome = true) :
    b.gotos = b.earlierGotos := by
  obtain ⟨state, hstate⟩ := Option.isSome_iff_exists.mp hcurrent
  simp [gotos, (h.opened state hstate).1]

/-- With no row open, gotos go to the end of the last one. -/
theorem gotos_append (h : b.Ordered) (extra : GotoRow) :
    gotos { b with gotoRow := b.gotoRow ++ extra } =
      GotoRow.amend b.gotos (if b.current.isSome then [] else extra) := by
  rcases Option.eq_none_or_eq_some b.current with hcurrent | ⟨state, hcurrent⟩
  · by_cases hclosed : b.gotoRowClosed = true
    · simp [gotos, hclosed, hcurrent]
    · have hfirst := h.first hcurrent (by simpa using hclosed)
      have hearlier : b.earlierGotos = [] := by simpa [gotos, hclosed] using hfirst
      simp [gotos, hclosed, hearlier]
  · simp [gotos, (h.opened state hcurrent).1, hcurrent]

theorem append (h : b.Ordered) (extra : GotoRow) :
    Ordered { b with gotoRow := b.gotoRow ++ extra } ∧
      Becomes b { b with gotoRow := b.gotoRow ++ extra } (if b.current.isSome then [] else extra) := by
  have hgotos := h.gotos_append extra
  have hbecomes : Becomes b { b with gotoRow := b.gotoRow ++ extra }
      (if b.current.isSome then [] else extra) := .stays rfl rfl hgotos
  refine ⟨⟨hbecomes.lengths h.lengths, h.opened, ?_⟩, hbecomes⟩
  intro hnone hclosed
  rw [hgotos, h.first hnone hclosed, GotoRow.amend_empty]

theorem closeRow (h : b.Ordered) (hclose : b.closeRow = .ok c) :
    c.Ordered ∧ c.current = none ∧ Becomes b c [] := by
  rcases closeRow_eq_ok hclose with ⟨hcurrent, rfl⟩ | ⟨state, found, hcurrent, rfl⟩
  · exact ⟨h, hcurrent, .refl _⟩
  · have hgotos := h.gotos_of_current (Option.isSome_of_eq_some hcurrent)
    refine ⟨⟨?_, by simp, by simp⟩, rfl, .closes (Option.isSome_of_eq_some hcurrent) rfl _ b.gotoRow
      rfl ?_⟩
    · have hlengths := h.lengths
      rw [hgotos] at hlengths
      simp [gotos, hlengths]
    · exact congrArg (· ++ [b.gotoRow]) hgotos.symm

theorem newRow (h : b.Ordered) (state : Int) :
    (b.newRow state).1.Ordered ∧ Becomes b (b.newRow state).1 [] := by
  unfold Builder.newRow
  cases hclose : b.closeRow with
  | error e => exact ⟨h, .refl b⟩
  | ok c =>
    obtain ⟨hc, hcurrent, hbecomes⟩ := h.closeRow hclose
    simp only
    split
    · refine ⟨⟨hc.lengths, by simp, by simp⟩, ?_⟩
      cases hbecomes with
      | stays hsame hactions hgotos =>
        refine .opens ?_ rfl rfl hactions (by simpa [gotos] using hgotos)
        simpa [hcurrent] using hsame.symm
      | closes hopen _ row gotoRow hactions hgotos => exact .closes hopen rfl row gotoRow hactions hgotos
      | opens _ hopened => simp [hcurrent] at hopened
    · exact ⟨hc, hbecomes⟩

theorem vote (h : b.Ordered) (terminal : String) (move : Move) (item : Item) :
    (b.vote terminal move item).1.Ordered ∧ Becomes b (b.vote terminal move item).1 [] := by
  unfold Builder.vote
  split
  · exact ⟨⟨h.lengths, h.opened, h.first⟩, .stays rfl rfl (GotoRow.amend_nil _).symm⟩
  · exact ⟨h, .refl b⟩

theorem goto (h : b.Ordered) (name : String) (state : Nat) :
    (b.goto name state).1.Ordered ∧
      Becomes b (b.goto name state).1 (b.stray (.goto name state)) := by
  have happend := h.append [(name, state)]
  unfold Builder.goto
  rcases Option.eq_none_or_eq_some b.current with hcurrent | ⟨row, hcurrent⟩
  · simp only [stray, hcurrent]
    split
    · exact ⟨h, .refl b⟩
    · simpa [hcurrent] using happend
  · simp only [stray, hcurrent]
    split
    · exact ⟨h, .refl b⟩
    · simpa [hcurrent] using happend

theorem flush (h : b.Ordered) : b.flush.1.Ordered ∧ Becomes b b.flush.1 [] := by
  unfold Builder.flush
  cases hclose : b.closeRow with
  | error e => exact ⟨h, .refl b⟩
  | ok c =>
    obtain ⟨hc, -, hbecomes⟩ := h.closeRow hclose
    simp only
    split <;> exact ⟨hc, hbecomes⟩

/-- One call, and what it does. -/
theorem use (h : b.Ordered) (call : Call) :
    (b.use call).1.Ordered ∧ Becomes b (b.use call).1 (b.stray call) := by
  have hstray (hcall : ∀ name state, call ≠ .goto name state) : b.stray call = [] := by
    unfold stray
    split
    · exact absurd rfl (hcall _ _)
    · rfl
  cases call with
  | newRow state => exact hstray (by simp) ▸ h.newRow state
  | shift terminal state item => exact hstray (by simp) ▸ h.vote terminal (.shift state) item
  | reduce terminal item => exact hstray (by simp) ▸ h.vote terminal (.reduce item.production) item
  | accept terminal item => exact hstray (by simp) ▸ h.vote terminal .accept item
  | goto name state => exact h.goto name state
  | flush => exact hstray (by simp) ▸ h.flush

theorem after (h : b.Ordered) (calls : List Call) : (b.after calls).Ordered := by
  induction calls generalizing b with
  | nil => exact h
  | cons call calls ih => exact ih (h.use call).1

/-! ## What many calls do -/

theorem actions_prefix (h : b.Ordered) (calls : List Call) :
    b.actions <+: (b.after calls).actions := by
  induction calls generalizing b with
  | nil => exact List.prefix_refl _
  | cons call calls ih =>
    obtain ⟨hnext, hbecomes⟩ := h.use call
    exact hbecomes.actions_prefix.trans (ih hnext)

/-- Only the last row changes, and only by the gotos that are called before another is opened. -/
theorem gotos_prefix (h : b.Ordered) (calls : List Call) :
    GotoRow.amend b.gotos (b.strays calls) <+: (b.after calls).gotos := by
  induction calls generalizing b with
  | nil => simp [strays]
  | cons call calls ih =>
    obtain ⟨hnext, hbecomes⟩ := h.use call
    have hrest := ih hnext
    rw [after_cons]
    by_cases hopen : b.current.isSome = true
    · -- What is called does not reach the rows behind which one is open.
      rw [strays_of_open hopen, GotoRow.amend_nil]
      cases hbecomes with
      | stays hcurrent _ hgotos =>
        rw [stray_of_open hopen, GotoRow.amend_nil] at hgotos
        rwa [strays_of_open (hcurrent.trans hopen), GotoRow.amend_nil, hgotos] at hrest
      | closes _ _ row gotoRow _ hgotos =>
        rw [hgotos, GotoRow.amend_concat] at hrest
        exact (List.prefix_append _ _).trans hrest
      | opens hcurrent => simp [hcurrent] at hopen
    · rw [strays, if_neg hopen, GotoRow.amend_append]
      cases hbecomes with
      | stays _ _ hgotos => rwa [hgotos] at hrest
      | closes hcurrent => exact absurd hcurrent hopen
      | opens _ hopened hextra _ hgotos =>
        rw [strays_of_open hopened, GotoRow.amend_nil] at hrest ⊢
        rwa [hextra, GotoRow.amend_nil, ← hgotos]

/-- If gotos are called in open rows only, no row changes once it is closed. -/
theorem gotos_prefix_of_open (h : b.Ordered) (hopen : ∀ earlier name state rest,
      calls = earlier ++ .goto name state :: rest → (b.after earlier).current.isSome = true) :
    b.gotos <+: (b.after calls).gotos := by
  have hstrays : b.strays calls = [] := by
    clear h
    induction calls generalizing b with
    | nil => rfl
    | cons call calls ih =>
      rw [strays]
      split
      · rfl
      · rename_i hcurrent
        have hcall : b.stray call = [] := by
          cases call with
          | goto name state => exact absurd (hopen [] name state calls rfl) hcurrent
          | newRow | shift | reduce | accept | flush => simp [stray]
        rw [hcall, List.nil_append]
        refine ih fun earlier name state rest hcalls => ?_
        exact hopen (call :: earlier) name state rest (by rw [hcalls, List.cons_append])
  simpa [hstrays] using h.gotos_prefix calls

end Ordered

/-! ## Between two rows -/

theorem use_vote_of_closed (h : b.current = none) (hcall : call.isVote = true) :
    b.use call = (b, .error .misuse) := by
  have hvote (terminal : String) (move : Move) (item : Item) :
      (b.vote terminal move item).answer = (b, .error .misuse) := by
    rw [vote, if_neg (by simp [h])]
    rfl
  cases call with
  | newRow => cases hcall
  | shift terminal state item => exact hvote terminal _ item
  | reduce terminal item => exact hvote terminal _ item
  | accept terminal item => exact hvote terminal _ item
  | goto => cases hcall
  | flush => cases hcall

/-- With no row open, only a goto changes anything, and only the row of the last gotos. -/
theorem use_of_closed (h : b.current = none) (hcall : call.isNewRow = false) :
    (b.use call).1 = { b with gotoRow := b.gotoRow ++ b.stray call } := by
  have hsame {extra : GotoRow} (hextra : extra = []) : b = { b with gotoRow := b.gotoRow ++ extra } := by
    simp [hextra]
  cases call with
  | newRow => cases hcall
  | shift terminal state item =>
    rw [use_vote_of_closed h rfl]
    exact hsame (by simp [stray, h])
  | reduce terminal item =>
    rw [use_vote_of_closed h rfl]
    exact hsame (by simp [stray, h])
  | accept terminal item =>
    rw [use_vote_of_closed h rfl]
    exact hsame (by simp [stray, h])
  | goto name state =>
    simp only [use, goto]
    split
    · rename_i hfound
      exact hsame (by simp [stray, h, hfound])
    · rename_i hfound
      simp [Step.answer, stray, h, hfound]
  | flush =>
    have hflush : (b.use .flush).1 = b := by
      simp only [use, flush, closeRow_of_current h]
      split <;> rfl
    exact hflush.trans (hsame (by simp [stray, h]))

theorem after_of_closed (h : b.current = none) (hcalls : ∀ call ∈ calls, call.isNewRow = false) :
    b.after calls = { b with gotoRow := b.gotoRow ++ b.strays calls } := by
  induction calls generalizing b with
  | nil => simp [strays]
  | cons call calls ih =>
    have hcall := use_of_closed h (hcalls call List.mem_cons_self)
    have hnone : (b.use call).1.current = none := by rw [hcall, h]
    rw [after_cons, ih hnone fun c hc => hcalls c (List.mem_cons_of_mem _ hc), strays,
      if_neg (by simp [h])]
    generalize (b.use call).1.strays calls = extra
    rw [hcall, List.append_assoc]

/-- A row that cannot be closed: a vote in it is for no terminal of the grammar, or votes in it
differ and no path leads to it. -/
def Stuck (b : Builder) : Prop := ∃ state, b.current = some state ∧
  ((∃ v ∈ b.votes, b.automaton.grammar.symbolKey? v.1 = none) ∨
    (∃ t, t ∈ b.votes.contested) ∧ b.automaton.path? state = none)

theorem stuck_iff : b.Stuck ↔ ∃ e, b.closeRow = .error e := by
  unfold Stuck closeRow
  rcases Option.eq_none_or_eq_some b.current with hcurrent | ⟨state, hcurrent⟩
  · simp [hcurrent]
  · simp only [hcurrent, Option.some.injEq, exists_eq_left']
    cases hfind : b.votes.find? fun v => (b.automaton.grammar.symbolKey? v.1).isNone with
    | some v =>
      have hv : b.automaton.grammar.symbolKey? v.1 = none := by simpa using List.find?_some hfind
      exact ⟨fun _ => ⟨_, rfl⟩, fun _ => Or.inl ⟨v, List.mem_of_find?_eq_some hfind, hv⟩⟩
    | none =>
      have hknown : ¬ ∃ v ∈ b.votes, b.automaton.grammar.symbolKey? v.1 = none := by
        simpa using hfind
      simp only [hknown, false_or, rowConflicts]
      cases b.votes.contested with
      | nil => simp [Except.map]
      | cons t rest => cases hpath : b.automaton.path? state <;> simp [Except.map]

theorem mem_contested_append {votes : Votes} {t : String} (more : Votes) (h : t ∈ votes.contested) :
    t ∈ Votes.contested (votes ++ more) := by
  obtain ⟨v, hv, w, hw, hne⟩ := Votes.mem_contested_iff.mp h
  refine Votes.mem_contested_iff.mpr ⟨v, ?_, w, ?_, hne⟩
  · exact Votes.mem_for_iff.mpr (List.mem_append_left _ (Votes.mem_for_iff.mp hv))
  · exact Votes.mem_for_iff.mpr (List.mem_append_left _ (Votes.mem_for_iff.mp hw))

theorem Stuck.vote (h : b.Stuck) (terminal : String) (move : Move) (item : Item) :
    (b.vote terminal move item).1.Stuck := by
  obtain ⟨state, hstate, hwhy⟩ := h
  rw [Builder.vote, if_pos (Option.isSome_of_eq_some hstate)]
  refine ⟨state, hstate, hwhy.imp ?_ (And.imp_left ?_)⟩
  · intro hunknown
    obtain ⟨v, hv, hnone⟩ := hunknown
    exact ⟨v, List.mem_append_left _ hv, hnone⟩
  · intro hcontested
    obtain ⟨t, ht⟩ := hcontested
    exact ⟨t, mem_contested_append _ ht⟩

/-- What is called in a row that cannot be closed does not help it. -/
theorem Stuck.use (h : b.Stuck) (hcall : call.isNewRow = false) : (b.use call).1.Stuck := by
  cases call with
  | newRow => cases hcall
  | shift terminal state item => exact h.vote terminal _ item
  | reduce terminal item => exact h.vote terminal _ item
  | accept terminal item => exact h.vote terminal _ item
  | goto name state =>
    simp only [Builder.use, goto]
    split <;> exact h
  | flush =>
    obtain ⟨e, he⟩ := stuck_iff.mp h
    simpa [Builder.use, flush, he] using h

theorem Stuck.after (h : b.Stuck) (hcalls : ∀ call ∈ calls, call.isNewRow = false) :
    (b.after calls).Stuck := by
  induction calls generalizing b with
  | nil => exact h
  | cons call calls ih =>
    exact ih (h.use (hcalls call List.mem_cons_self)) fun c hc => hcalls c (List.mem_cons_of_mem _ hc)

/-! ## Two flushes -/

theorem flush_of_stuck (h : b.Stuck) : ∃ e, b.flush = (b, .error e) := by
  obtain ⟨e, he⟩ := stuck_iff.mp h
  exact ⟨e, by simp [flush, he]⟩

/-- Without a row to close, a flush leaves the builder as it is. -/
theorem flush_of_closed (h : b.current = none) : b.flush = (b, match b.conflicts with
    | [] => .ok (b.automaton.tableOf b.actions b.gotos)
    | found => .error (.conflicts found)) := by
  simp only [flush, closeRow_of_current h]
  cases b.conflicts <;> rfl

theorem flush_of_closeRow (h : b.closeRow = .ok c) (hcurrent : c.current = none) :
    b.flush = c.flush := by
  simp only [flush, h, closeRow_of_current hcurrent]

/-- More gotos at the end of the last row are in the next table. -/
theorem flush_append (h : b.Ordered) (hcurrent : b.current = none) (extra : GotoRow) :
    (flush { b with gotoRow := b.gotoRow ++ extra }).2 = b.flush.2.map fun t => t.amend extra := by
  have hgotos := h.gotos_append extra
  rw [if_neg (by simp [hcurrent])] at hgotos
  rw [flush_of_closed hcurrent, flush_of_closed (b := { b with gotoRow := b.gotoRow ++ extra }) hcurrent,
    hgotos]
  simp only
  split <;> rfl

theorem not_stuck_iff : ¬ b.Stuck ↔ ∃ c, b.closeRow = .ok c := by
  rw [stuck_iff]
  cases b.closeRow <;> simp

namespace Ordered

theorem current_of_flush (h : b.Ordered) (hstuck : ¬ b.Stuck) : b.flush.1.current = none := by
  obtain ⟨c, hc⟩ := not_stuck_iff.mp hstuck
  have hcurrent := (h.closeRow hc).2.1
  rw [flush_of_closeRow hc hcurrent, flush_of_closed hcurrent]
  exact hcurrent

theorem current_of_refused (h : b.Ordered) {state : Int} (hrefused : (b.newRow state).2 = some .misuse)
    (hstuck : ¬ b.Stuck) : (b.newRow state).1.current = none := by
  obtain ⟨c, hc⟩ := not_stuck_iff.mp hstuck
  unfold Builder.newRow at hrefused ⊢
  rw [hc] at hrefused ⊢
  simp only at hrefused ⊢
  split
  · rename_i hstate
    simp [hstate] at hrefused
  · exact (h.closeRow hc).2.1

/-- Flushes between which no row is opened differ only by the gotos called between them. -/
theorem flush_again (h : b.Ordered) (hstuck : ¬ b.Stuck)
    (hcalls : ∀ call ∈ calls, call.isNewRow = false) :
    (b.flush.1.after calls).flush.2 =
      b.flush.2.map fun t => t.amend (b.flush.1.strays calls) := by
  obtain ⟨c, hc⟩ := not_stuck_iff.mp hstuck
  obtain ⟨hordered, hcurrent, -⟩ := h.closeRow hc
  have hflush := flush_of_closeRow hc hcurrent
  have hsame : b.flush.1 = c := by rw [hflush, flush_of_closed hcurrent]
  rw [hsame, after_of_closed hcurrent hcalls, flush_append hordered hcurrent, hflush]

end Ordered

/-- What later calls leave of what a builder has. -/
structure Keeps (b : Builder) (later : List Call) : Prop where
  lengths : b.actions.length = b.gotos.length
  actions : b.actions <+: (b.after later).actions
  /-- Only the last row of gotos changes, by the gotos called before another row is opened. -/
  gotos : GotoRow.amend b.gotos (b.strays later) <+: (b.after later).gotos
  /-- A flush leaves no row open, and a new row that is refused neither, unless the open one
  cannot be closed. -/
  closed : ¬ b.Stuck → b.flush.1.current = none ∧
    ∀ state, (b.newRow state).2 = some .misuse → (b.newRow state).1.current = none
  votes : b.current = none → ∀ call, call.isVote = true → b.use call = (b, .error .misuse)
  goto : b.current = none → ∀ name state, b.use (.goto name state) = (b, .error .misuse) ∨
    b.stray (.goto name state) = [(name, state)] ∧
      b.use (.goto name state) = ({ b with gotoRow := b.gotoRow ++ [(name, state)] }, .ok none)
  /-- Two flushes give the same, but for the gotos called between them. -/
  flushes : ¬ b.Stuck → (∀ call ∈ later, call.isNewRow = false) →
    (b.flush.1.after later).flush.2 = b.flush.2.map fun t => t.amend (b.flush.1.strays later)
  /-- If the row cannot be closed at the first flush, it cannot at the second. -/
  fails : b.Stuck → (∀ call ∈ later, call.isNewRow = false) →
    (∃ e, b.flush = (b, .error e)) ∧ ∃ e, (b.after later).flush = (b.after later, .error e)

/-- Whatever is called, rows stay as they are closed, but for gotos in the last one. -/
theorem rows_kept (a : Automaton) (calls later : List Call) :
    ((ofAutomaton a).after calls).Keeps later := by
  have hordered := (ordered_ofAutomaton a).after calls
  generalize (ofAutomaton a).after calls = b at hordered
  refine ⟨hordered.lengths, hordered.actions_prefix later, hordered.gotos_prefix later, ?_,
    fun hcurrent _ => use_vote_of_closed hcurrent, ?_, fun hstuck => hordered.flush_again hstuck, ?_⟩
  · intro hstuck
    exact ⟨hordered.current_of_flush hstuck, fun state h => hordered.current_of_refused h hstuck⟩
  · intro hcurrent name state
    simp only [use, Builder.goto, stray, hcurrent]
    split
    · exact Or.inl rfl
    · exact Or.inr ⟨rfl, rfl⟩
  · intro hstuck hlater
    exact ⟨flush_of_stuck hstuck, flush_of_stuck (hstuck.after hlater)⟩

/-- The grammar of one word. -/
def oneWord : Grammar where
  start := "S"
  productions := [.goal "S", ⟨1, "S", [.terminal "x"]⟩]
  wellFormed :=
    ⟨rfl, by decide, by decide, by decide, by simp [Production.goal],
      by simp [Production.goal, endName, goalName]⟩

/-- Behind the flush that closed it, the row of a table gets another goto, and the next flush
gives another table. -/
theorem goto_behind_flush :
    let b := (ofAutomaton (.build oneWord)).after [.newRow 0]
    (b.use .flush).2.map (Option.map Table.gotos) = .ok (some [[]]) ∧
      (b.after [.flush]).current = none ∧ (b.after [.flush]).gotos = [[]] ∧
      ((b.after [.flush]).use (.goto "S" 1)).2 = .ok none ∧
      (b.after [.flush, .goto "S" 1]).gotos = [[("S", 1)]] ∧
      ((b.after [.flush, .goto "S" 1]).use .flush).2.map (Option.map Table.gotos) =
        .ok (some [[("S", 1)]]) :=
  by
  have hterminals : Votes.terminals [] = [] := by simp [Votes.terminals, sortNames]
  have hcontested : Votes.contested [] = [] := by simp [Votes.contested, hterminals]
  simp [after, use, Step.answer, ofAutomaton, newRow, flush, closeRow, rowConflicts, hcontested,
    gotos, goto, Except.map, Automaton.tableOf]

end Builder

end Slr
