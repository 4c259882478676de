import Slr.Stream.Basic

/-! # What a stream has in store

A stream in any state is a list of tokens still to come and what ends them: a
token of the end of the input, which then stays ahead for ever, or a fault of
the source. Looking at the stream gives the head of that list and keeps it,
passing a token takes the head off. -/

namespace Slr

/-- Tokens to come, and the token or the fault behind them. -/
structure Feed where
  tokens : List Token
  ending : Except Fault Token

namespace Feed

def cons (t : Token) (f : Feed) : Feed := { f with tokens := t :: f.tokens }

/-- What is ahead. -/
def head (f : Feed) : Except Fault Token :=
  match f.tokens with
  | t :: _ => .ok t
  | [] => f.ending

/-- What is left behind the head; the ending stays. -/
def tail (f : Feed) : Feed := { f with tokens := f.tokens.tail }

/-- A token ahead, with what comes behind it unless it is the end of the input. -/
def before (t : Token) (later : Feed) : Feed :=
  if t.kind = endName then ⟨[], .ok t⟩ else later.cons t

/-- The kinds of the tokens to come, with that of the end behind them. -/
def word (f : Feed) : List String := f.tokens.map Token.kind ++ [endName]

/-- What items of a source hold for a stream that has pulled `pulled` tokens, the
last of which ended at `last`. -/
def ofItems : List RawToken → Nat → Int → Feed
  | .token t :: rest, pulled, _ => before t (ofItems rest (pulled + 1) t.stop)
  | .pair kind value :: rest, pulled, _ =>
    before ⟨kind, value, pulled, pulled + 1⟩ (ofItems rest (pulled + 1) (pulled + 1))
  | [], _, last | .nothing :: _, _, last => ⟨[], .ok ⟨endName, .none, last, last⟩⟩
  | .fault f :: _, _, _ => ⟨[], .error f⟩

/-- An item that is a token, or a pair at its place, comes before what is behind it. -/
theorem ofItems_cons_of_token {raw : RawToken} {pulled : Nat} {t : Token}
    (h : raw.token? pulled = some t) (rest : List RawToken) (last : Int) :
    ofItems (raw :: rest) pulled last = before t (ofItems rest (pulled + 1) t.stop) := by
  cases raw with
  | token u =>
    cases h
    rfl
  | pair kind value =>
    cases h
    rfl
  | nothing | fault f => cases h

theorem head_before (t : Token) (later : Feed) : (before t later).head = .ok t := by
  unfold before
  split <;> rfl

theorem tail_before_end {t : Token} (h : t.kind = endName) (later : Feed) :
    (before t later).tail = before t later := by
  simp [before, h, tail]

theorem tail_before {t : Token} (h : t.kind ≠ endName) (later : Feed) :
    (before t later).tail = later := by
  simp [before, h, tail, cons]

/-- A fault ahead is what ends the tokens. -/
theorem ending_of_head {feed : Feed} {f : Fault} (h : feed.head = .error f) :
    feed.ending = .error f := by
  unfold head at h
  split at h
  · cases h
  · exact h

/-- Only the end of the input ends the tokens of a feed, and none of them is it. -/
def WellEnded (f : Feed) : Prop :=
  (∀ t ∈ f.tokens, t.kind ≠ endName) ∧ ∀ e, f.ending = .ok e → e.kind = endName

theorem wellEnded_before {t : Token} {later : Feed} (h : later.WellEnded) :
    (before t later).WellEnded := by
  by_cases ht : t.kind = endName
  · rw [before, if_pos ht]
    refine ⟨by simp, ?_⟩
    intro e he
    cases he
    exact ht
  · rw [before, if_neg ht]
    refine ⟨?_, h.2⟩
    intro u hu
    rcases List.mem_cons.mp hu with rfl | hu
    · exact ht
    · exact h.1 u hu

theorem wellEnded_atEnd (last : Int) : WellEnded ⟨[], .ok ⟨endName, .none, last, last⟩⟩ := by
  refine ⟨by simp, ?_⟩
  intro e he
  cases he
  rfl

theorem wellEnded_ofItems (items : List RawToken) (pulled : Nat) (last : Int) :
    (ofItems items pulled last).WellEnded := by
  induction items generalizing pulled last with
  | nil => exact wellEnded_atEnd last
  | cons raw rest ih =>
    cases raw with
    | token t => exact wellEnded_before (ih _ _)
    | pair kind value => exact wellEnded_before (ih _ _)
    | nothing => exact wellEnded_atEnd last
    | fault f => exact ⟨by simp [ofItems], fun e he => by cases he⟩

theorem ending_of_before {t : Token} {later : Feed} {f : Fault}
    (h : (before t later).ending = .error f) : later.ending = .error f := by
  unfold before at h
  split at h
  · cases h
  · exact h

theorem fault_mem_of_ending {items : List RawToken} {pulled : Nat} {last : Int} {f : Fault}
    (h : (ofItems items pulled last).ending = .error f) : .fault f ∈ items := by
  induction items generalizing pulled last with
  | nil => cases h
  | cons raw rest ih =>
    cases raw with
    | token t => exact List.mem_cons_of_mem _ (ih (ending_of_before h))
    | pair kind value => exact List.mem_cons_of_mem _ (ih (ending_of_before h))
    | nothing => cases h
    | fault f' =>
      cases h
      exact List.mem_cons_self

end Feed

namespace TokenStream

/-- What the source of a stream holds, the token that was looked at apart. -/
def later (s : TokenStream) : Feed :=
  match s.source with
  | none => ⟨[], .ok ⟨endName, .none, s.lastEnd, s.lastEnd⟩⟩
  | some src => Feed.ofItems src.items s.pulled s.lastEnd

/-- The tokens that a stream has in store, and what ends them. -/
def feed (s : TokenStream) : Feed :=
  match s.ahead with
  | none => s.later
  | some t => .before t s.later

theorem later_of_source {s : TokenStream} {src : Source} (h : s.source = some src) :
    s.later = Feed.ofItems src.items s.pulled s.lastEnd := by
  rw [later, h]

theorem wellEnded_later (s : TokenStream) : s.later.WellEnded := by
  unfold later
  split
  · exact Feed.wellEnded_atEnd _
  · exact Feed.wellEnded_ofItems _ _ _

theorem wellEnded_feed (s : TokenStream) : s.feed.WellEnded := by
  unfold feed
  split
  · exact s.wellEnded_later
  · exact Feed.wellEnded_before s.wellEnded_later

/-- Every token of a stream's store that ends it is the end of the input. -/
theorem isEnd_of_feed_ending {s : TokenStream} {e : Token} (h : s.feed.ending = .ok e) :
    e.kind = endName := s.wellEnded_feed.2 e h

/-- A fault that ends the tokens of a stream is one of its source. -/
theorem fault_of_feed_ending {s : TokenStream} {f : Fault} (h : s.feed.ending = .error f) :
    ∃ src, s.source = some src ∧ .fault f ∈ src.items := by
  have hlater : s.later.ending = .error f := by
    unfold feed at h
    split at h
    · exact h
    · exact Feed.ending_of_before h
  unfold later at hlater
  split at hlater
  · cases hlater
  · exact ⟨_, ‹_›, Feed.fault_mem_of_ending hlater⟩

theorem kind_ne_end_of_mem_feed {s : TokenStream} {t : Token} (h : t ∈ s.feed.tokens) :
    t.kind ≠ endName := s.wellEnded_feed.1 t h

/-- A token ahead that is not the end of the input is the first of the tokens to come. -/
theorem tokens_of_head {s : TokenStream} {t : Token} (h : s.feed.head = .ok t)
    (ht : t.kind ≠ endName) : s.feed.tokens = t :: s.feed.tail.tokens := by
  unfold Feed.head at h
  cases htokens : s.feed.tokens with
  | cons u us =>
    simp only [htokens, Except.ok.injEq] at h
    simp [Feed.tail, htokens, h]
  | nil =>
    simp only [htokens] at h
    exact absurd (isEnd_of_feed_ending h) ht

theorem tokens_eq_nil_of_head {s : TokenStream} {t : Token} (h : s.feed.head = .ok t)
    (ht : t.kind = endName) : s.feed.tokens = [] ∧ s.feed.ending = .ok t := by
  unfold Feed.head at h
  cases htokens : s.feed.tokens with
  | cons u us =>
    simp only [htokens, Except.ok.injEq] at h
    exact absurd ht (kind_ne_end_of_mem_feed (s := s) (by simp [htokens, h]))
  | nil =>
    simp only [htokens] at h
    exact ⟨rfl, h⟩

theorem word_of_head {s : TokenStream} {t : Token} (h : s.feed.head = .ok t) :
    ∃ w, s.feed.word = t.kind :: w := by
  by_cases ht : t.kind = endName
  · exact ⟨[], by simp [Feed.word, (tokens_eq_nil_of_head h ht).1, ht]⟩
  · exact ⟨s.feed.tail.word, by simp [Feed.word, tokens_of_head h ht]⟩

theorem word_tail {s : TokenStream} {t : Token} (h : s.feed.head = .ok t)
    (ht : t.kind ≠ endName) : s.feed.word = t.kind :: s.feed.tail.word := by
  simp [Feed.word, tokens_of_head h ht]

/-- A source without faults ends in a token. -/
theorem exists_feed {items : List RawToken} (h : ∀ f, .fault f ∉ items) (watched : Bool) :
    ∃ ts e, (ofItems items watched).feed = ⟨ts, .ok e⟩ := by
  cases hending : (ofItems items watched).feed.ending with
  | ok e => exact ⟨_, e, by rw [← hending]⟩
  | error f => exact absurd (Feed.fault_mem_of_ending hending) (h f)

/-- Tokens of a source, none of which is the end, are in store before what comes behind them. -/
theorem ofItems_append (tokens : List Token) (h : ∀ t ∈ tokens, t.kind ≠ endName)
    (rest : List RawToken) (pulled : Nat) (last : Int) :
    ∃ pulled' last', Feed.ofItems (tokens.map .token ++ rest) pulled last =
      ⟨tokens ++ (Feed.ofItems rest pulled' last').tokens, (Feed.ofItems rest pulled' last').ending⟩ := by
  induction tokens generalizing pulled last with
  | nil => exact ⟨pulled, last, rfl⟩
  | cons t tokens ih =>
    obtain ⟨pulled', last', hrest⟩ := ih (fun u hu => h u (by simp [hu])) (pulled + 1) t.stop
    have ht : t.kind ≠ endName := h t (by simp)
    exact ⟨pulled', last', by simp [Feed.ofItems, Feed.before, ht, hrest, Feed.cons]⟩

/-- A source of tokens, none of which is the end, has these tokens in store. -/
theorem ofItems_tokens (tokens : List Token) (h : ∀ t ∈ tokens, t.kind ≠ endName)
    (pulled : Nat) (last : Int) :
    ∃ e, Feed.ofItems (tokens.map .token) pulled last = ⟨tokens, .ok e⟩ := by
  obtain ⟨pulled', last', hfeed⟩ := ofItems_append tokens h [] pulled last
  exact ⟨_, by simpa [Feed.ofItems] using hfeed⟩

/-- If the end stands behind the tokens of a source, it ends what is in store. -/
theorem ofItems_tokens_end (tokens : List Token) (h : ∀ t ∈ tokens, t.kind ≠ endName) {e : Token}
    (he : e.kind = endName) (pulled : Nat) (last : Int) :
    Feed.ofItems (tokens.map .token ++ [.token e]) pulled last = ⟨tokens, .ok e⟩ := by
  obtain ⟨pulled', last', hfeed⟩ := ofItems_append tokens h [.token e] pulled last
  simpa [Feed.ofItems, Feed.before, he] using hfeed

/-! ## Looking and passing -/

/-- A pull of an item that is a token, or a pair at its place. -/
theorem pull_of_token {s : TokenStream} {src : Source} {raw : RawToken} {rest : List RawToken}
    {t : Token} (hsrc : s.source = some src) (hitems : src.items = raw :: rest)
    (h : raw.token? s.pulled = some t) :
    s.pull = ⟨.ok t, { s with
      source := if t.kind = endName then none
        else some { src with items := rest, index := src.index + 1 },
      pulled := s.pulled + 1, lastEnd := t.stop },
      if src.watched then [.pulled src.index] else []⟩ := by
  cases raw <;> simp_all [pull, RawToken.token?]

/-- A pull gives the head of what the source holds; what is left of it is the rest. -/
theorem pull_spec (s : TokenStream) :
    s.pull.result = s.later.head ∧
      ∀ t, s.pull.result = .ok t → Feed.before t s.pull.stream.later = s.later := by
  cases hsrc : s.source with
  | none =>
    simp only [pull, later, hsrc, finish]
    refine ⟨rfl, ?_⟩
    intro t ht
    cases ht
    rfl
  | some src =>
    have hended (hpull : s.pull.result = .ok ⟨endName, .none, s.lastEnd, s.lastEnd⟩)
        (hfeed : Feed.ofItems src.items s.pulled s.lastEnd =
          ⟨[], .ok ⟨endName, .none, s.lastEnd, s.lastEnd⟩⟩) :
        s.pull.result = s.later.head ∧
          ∀ t, s.pull.result = .ok t → Feed.before t s.pull.stream.later = s.later := by
      rw [later_of_source hsrc, hfeed, hpull]
      refine ⟨rfl, ?_⟩
      intro t ht
      cases ht
      exact if_pos rfl
    have htoken {raw : RawToken} {rest : List RawToken} {t : Token}
        (hitems : src.items = raw :: rest) (ht : raw.token? s.pulled = some t) :
        s.pull.result = s.later.head ∧
          ∀ t, s.pull.result = .ok t → Feed.before t s.pull.stream.later = s.later := by
      rw [later_of_source hsrc, hitems, Feed.ofItems_cons_of_token ht,
        pull_of_token hsrc hitems ht]
      refine ⟨(Feed.head_before t _).symm, ?_⟩
      intro u hu
      cases hu
      by_cases hend : t.kind = endName
      · simp [Feed.before, hend]
      · simp [later, hend]
    cases hitems : src.items with
    | nil => exact hended (by simp [pull, hsrc, hitems, finish, Token.atEnd]) (by rw [hitems, Feed.ofItems])
    | cons raw rest =>
      cases raw with
      | token t => exact htoken hitems rfl
      | pair kind value => exact htoken hitems rfl
      | nothing =>
        exact hended (by simp [pull, hsrc, hitems, finish, RawToken.token?, Token.atEnd])
          (by rw [hitems, Feed.ofItems])
      | fault f =>
        refine ⟨by simp [pull, later, hsrc, hitems, Feed.ofItems, Feed.head], ?_⟩
        intro t ht
        simp [pull, hsrc, hitems] at ht

theorem peek_result (s : TokenStream) : s.peek.result = s.feed.head := by
  unfold peek feed
  cases s.ahead with
  | some t => exact (Feed.head_before t _).symm
  | none =>
    rw [← s.pull_spec.1]
    cases hpull : s.pull.result with
    | ok t => simp [hpull]
    | error f => simp [hpull]

theorem peek_ahead {s : TokenStream} {t : Token} (h : s.peek.result = .ok t) :
    s.peek.stream.ahead = some t := by
  unfold peek at h ⊢
  cases ha : s.ahead with
  | some u =>
    simp only [ha, Except.ok.injEq] at h
    simp [ha, h]
  | none =>
    cases hpull : s.pull.result with
    | ok u =>
      simp only [ha, hpull, Except.ok.injEq] at h
      simp [hpull, h]
    | error f => simp [ha, hpull] at h

theorem peek_feed {s : TokenStream} {t : Token} (h : s.peek.result = .ok t) :
    s.peek.stream.feed = s.feed := by
  have hahead := peek_ahead h
  unfold peek at h hahead ⊢
  unfold feed
  cases ha : s.ahead with
  | some u => simp [ha]
  | none =>
    cases hpull : s.pull.result with
    | error f => simp [ha, hpull] at h
    | ok u =>
      simp only [hpull]
      exact s.pull_spec.2 u hpull

theorem peek_position (s : TokenStream) : s.peek.stream.position = s.position := by
  have hpull : s.pull.stream.position = s.position := by
    unfold pull finish
    repeat' split
    all_goals rfl
  unfold peek
  cases s.ahead with
  | some t => rfl
  | none => cases h : s.pull.result <;> simp [h, hpull]

theorem pass_feed {s : TokenStream} {t : Token} (h : s.ahead = some t) :
    (s.pass t).feed = s.feed.tail := by
  by_cases ht : t.kind = endName
  · simp [pass, feed, h, ht, later, Feed.tail_before_end]
  · simp [pass, feed, h, ht, later, Feed.tail_before]

end TokenStream

end Slr
