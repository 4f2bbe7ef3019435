import MyCppCode.MyServer.SharedConnection
import MyCppCode.MyServer.TcpConnectionStream

/-!
# SharedConnectionStrings — the bytes that `sendInLoop` is given

On the loop thread `send` passes its argument on at once, and for a `Buffer` the queued functor has a
copy.  For a `std::string` off the loop thread it has `c_str()` and `size()`: it reads what the string
holds when the loop thread comes to it.
-/

namespace MyCppCode
namespace MyServer
namespace SharedConnection

open Foundation
open EventLoop (Thread)
open TcpConnection (freshConnection)

/-- The functors that are queued, that wait in the batch, and that run. -/
def State.outstanding (s : State) : List Functor :=
  (match s.running with
    | some (.functor f) => [f]
    | _ => []) ++ s.todo ++ s.pendingFunctors

/-- A functor that is outstanding refers to the cell, for a string that held `promised`. -/
def State.refers (s : State) (cell : Cell) (promised : Bytes) : Prop :=
  ∃ len, .sendInLoop (.chars cell len) promised ∈ s.outstanding

/-- While a functor refers to a string, the string is neither destroyed nor changed in the bytes that
it held when `send` was called. -/
def KeepsBytes (s : State) : Event → Prop
  | .assign t i data => ∀ promised, s.refers (t, i) promised → promised <+: data
  | .destroy t i => ∀ promised, ¬ s.refers (t, i) promised
  | _ => True

/-- `sendInLoop` has run on what the argument held when `send` was called, or would if the loop thread
came to it now. -/
structure PassesOn (s : State) : Prop where
  delivered : ∀ d ∈ s.delivered,
    ∃ r, d.before.sendInLoop d.promised d.answer = .ok r ∧ d.outcome = some r
  outstanding : ∀ payload promised, .sendInLoop payload promised ∈ s.outstanding →
    s.read payload = some promised

/-- The argument of a call is as it was when the call began. -/
def ArgsKept (s : State) : Prop :=
  ∀ t arg promised, s.calls t = .sending arg promised → s.content t arg = some promised

variable {s s' : State} {e : Event}

/-! ## What a functor is bound to -/

theorem read_of_bind {t : Thread} {arg : Arg} {payload : Payload} {promised : Bytes}
    (hcontent : s.content t arg = some promised) (hbind : s.bind t arg = some payload) :
    s.read payload = some promised := by
  cases arg with
  | string i =>
      have hstring : s.strings (t, i) = some promised := hcontent
      simp only [State.bind, hstring, Option.map_some] at hbind
      cases hbind
      simp [State.read, hstring]
  | buffer data =>
      cases hcontent
      cases hbind
      rfl

theorem read_chars {cell : Cell} {len : Nat} {promised : Bytes} :
    s.read (.chars cell len) = some promised ↔
      ∃ data, s.strings cell = some data ∧ promised.length = len ∧ promised <+: data := by
  cases hcell : s.strings cell with
  | none => simp [State.read, hcell]
  | some data =>
      simp only [State.read, hcell, Option.bind_some, Option.some.injEq, exists_eq_left']
      constructor
      · intro h
        split at h
        · rename_i hle
          cases h
          exact ⟨by simpa using hle, List.take_prefix _ _⟩
        · cases h
      · rintro ⟨rfl, hpre⟩
        rw [if_pos hpre.length_le, List.prefix_iff_eq_take.1 hpre]
        simp

/-! ## The argument of a call -/

theorem ArgsKept.setCall (hs : ArgsKept s) {t : Thread} {call : Call}
    (hcall : ∀ arg promised, call = .sending arg promised → s.content t arg = some promised) :
    ArgsKept (s.setCall t call) := by
  intro u arg promised hu
  simp only [State.setCall] at hu
  by_cases hut : u = t
  · subst hut
    rw [Function.update_self] at hu
    exact hcall arg promised hu
  · rw [Function.update_of_ne hut] at hu
    exact hs u arg promised hu

theorem ArgsKept.returned (hs : ArgsKept s) (t : Thread) : ArgsKept (s.setCall t .idle) :=
  hs.setCall fun _ _ h => nomatch h

/-- A thread that is in no call changes one of its strings. -/
theorem ArgsKept.update (hs : ArgsKept s) {t : Thread} (hidle : s.calls t = .idle) (i : Nat)
    (content : Option Bytes) :
    ArgsKept { s with strings := Function.update s.strings (t, i) content } := by
  intro u arg promised hu
  have hkept := hs u arg promised hu
  cases arg with
  | string k =>
      have hne : (u, k) ≠ (t, i) := by
        intro heq
        obtain ⟨rfl, rfl⟩ := Prod.mk.inj heq
        rw [hidle] at hu
        cases hu
      simpa [State.content, Function.update_of_ne hne] using hkept
  | buffer data => exact hkept

theorem step_argsKept (hs : ArgsKept s) (h : step s e = some s') : ArgsKept s' := by
  cases step_moves h with
  | sendTest hcontent hmay =>
      refine hs.setCall ?_
      rintro _ _ ⟨⟩
      exact hcontent
  | sendRun hcall hstate hfs houtcome => exact hs.returned .loop
  | sendPush hcall hbind => exact hs.returned _
  | shutdownTest hmay hconn => exact hs.setCall fun _ _ h => nomatch h
  | shutdownStore htested => exact hs.setCall fun _ _ h => nomatch h
  | shutdownRun => exact hs.returned .loop
  | shutdownPush hstored => exact hs.returned _
  | assign hidle => exact hs.update hidle _ _
  | destroy hidle => exact hs.update hidle _ _
  | _ => exact hs

/-! ## The functors of `send` -/

/-- One more run of `sendInLoop`, on the bytes that were promised, after which callbacks are queued. -/
theorem PassesOn.deliver (hs : PassesOn s) {promised : Bytes} {w : WriteResult}
    {fs : List Functor} {outcome : Option (TcpConnection × List Effect)} (c : TcpConnection)
    (hfs : ∀ f ∈ fs, f = .callback)
    (houtcome : ∃ r, s.conn.sendInLoop promised w = .ok r ∧ outcome = some r) :
    PassesOn
      { s with
        conn := c
        pendingFunctors := s.pendingFunctors ++ fs
        delivered := s.delivered ++ [⟨promised, s.conn, w, outcome⟩] } := by
  refine ⟨?_, ?_⟩
  · intro d hd
    rcases List.mem_append.1 hd with hold | hnew
    · exact hs.delivered d hold
    · obtain rfl := List.mem_singleton.1 hnew
      exact houtcome
  · intro payload promised' hmem
    refine hs.outstanding payload promised' ?_
    simp only [State.outstanding, List.mem_append] at hmem ⊢
    rcases hmem with hbatch | hpending | hcallback
    · exact .inl hbatch
    · exact .inr hpending
    · cases hfs _ hcallback

/-- The functors of `send` that are outstanding were so before. -/
theorem PassesOn.of_subset (hs : PassesOn s) (hstrings : s'.strings = s.strings)
    (hdelivered : s'.delivered = s.delivered)
    (hsub : ∀ payload promised, .sendInLoop payload promised ∈ s'.outstanding →
      .sendInLoop payload promised ∈ s.outstanding) : PassesOn s' := by
  refine ⟨by rw [hdelivered]; exact hs.delivered, ?_⟩
  intro payload promised hmem
  rw [← hs.outstanding payload promised (hsub _ _ hmem)]
  cases payload with
  | chars cell len => simp only [State.read, hstrings]
  | copy data => rfl

/-- A functor that is not of `send` is queued. -/
theorem PassesOn.queueInLoop (hs : PassesOn s) (fs : List Functor)
    (hfs : ∀ payload promised, .sendInLoop payload promised ∉ fs) : PassesOn (s.queueInLoop fs) := by
  refine hs.of_subset rfl rfl ?_
  intro payload promised hmem
  simp only [State.outstanding, State.queueInLoop, List.mem_append] at hmem ⊢
  rcases hmem with hbatch | hpending | hnew
  · exact .inl hbatch
  · exact .inr hpending
  · exact absurd hnew (hfs payload promised)

/-- The loop thread is done with the functor, or with a part of `connectDestroyed`. -/
theorem PassesOn.setRunning (hs : PassesOn s) (running : Option Running)
    (hrunning : ∀ payload promised, running ≠ some (.functor (.sendInLoop payload promised))) :
    PassesOn { s with running := running } := by
  refine hs.of_subset rfl rfl ?_
  intro payload promised hmem
  simp only [State.outstanding, List.mem_append] at hmem ⊢
  refine hmem.imp_left (Or.imp_left fun hrun => ?_)
  split at hrun
  · rw [List.mem_singleton] at hrun
    subst hrun
    exact absurd rfl (hrunning payload promised)
  · cases hrun

/-- The events that write to a string. -/
def Event.WritesString : Event → Prop
  | .assign _ _ _ => True
  | .destroy _ _ => True
  | _ => False

theorem step_passesOn (hargs : ArgsKept s) (hs : PassesOn s) (he : ¬ e.WritesString)
    (h : step s e = some s') : PassesOn s' := by
  have hremoved := hs.queueInLoop [.connectDestroyed] (by simp)
  cases step_moves h with
  | assign hidle => exact absurd trivial he
  | destroy hidle => exact absurd trivial he
  | sendRun hcall hstate hfs houtcome =>
      -- The argument is passed on while the call has it.
      have hnow := hs.deliver s.conn hfs (houtcome _ (hargs _ _ _ hcall))
      exact ⟨hnow.delivered, hnow.outstanding⟩
  -- The functor is new, and its string is still that of the call.
  | sendPush hcall hbind =>
      refine ⟨hs.delivered, ?_⟩
      intro payload promised hmem
      simp only [State.outstanding, State.queueInLoop, List.mem_append, List.mem_singleton] at hmem
      rcases hmem with hbatch | hpending | hnew
      · exact hs.outstanding payload promised (List.mem_append_left _ (List.mem_append.2 hbatch))
      · exact hs.outstanding payload promised (List.mem_append_right _ hpending)
      · obtain ⟨rfl, rfl⟩ := Functor.sendInLoop.inj hnew
        exact read_of_bind (hargs _ _ _ hcall) hbind
  | shutdownPush hstored =>
      have hqueued := hs.queueInLoop [.shutdownInLoop] (by simp)
      exact ⟨hqueued.delivered, hqueued.outstanding⟩
  | handleWrite =>
      rename_i w
      have hqueued := hs.queueInLoop (queued (s.conn.handleWrite w).2) fun _ _ hmem =>
        nomatch eq_callback_of_mem_queued hmem
      exact ⟨hqueued.delivered, hqueued.outstanding⟩
  | closeHere hat => exact ⟨hremoved.delivered, hremoved.outstanding⟩
  | removeConnectionInLoop hpos => exact ⟨hremoved.delivered, hremoved.outstanding⟩
  | serverDestroyed hmap => exact ⟨hremoved.delivered, hremoved.outstanding⟩
  | serverDestroyedHere hmap hnone =>
      have hrun := hs.setRunning (some (.functor .connectDestroyed)) (by simp)
      exact ⟨hrun.delivered, hrun.outstanding⟩
  -- The functors move from one list to another.
  | doPendingFunctors hat =>
      refine hs.of_subset rfl rfl ?_
      intro payload promised hmem
      simp only [State.outstanding, List.append_nil, List.mem_append] at hmem ⊢
      rcases hmem with hrun | hpending
      · exact .inl (.inl hrun)
      · exact .inr hpending
  | beginFunctor htodo hat =>
      refine hs.of_subset rfl rfl ?_
      intro payload promised hmem
      simp only [State.outstanding, List.mem_append, List.mem_singleton] at hmem ⊢
      rw [htodo]
      rcases hmem with (hrun | hrest) | hpending
      · exact .inl (.inr (by simp [hrun]))
      · exact .inl (.inr (List.mem_cons_of_mem _ hrest))
      · exact .inr hpending
  | runSend hrun hstate hfs houtcome =>
      rename_i payload promised _ _ _
      have hmem : .sendInLoop payload promised ∈ s.outstanding := by
        simp [State.outstanding, hrun]
      have hread := hs.outstanding payload promised hmem
      exact (hs.setRunning none (by simp)).deliver _ hfs (houtcome _ hread)
  | runOther hrun hf => exact hs.setRunning none (by simp)
  | runDestroyed hr =>
      refine hs.setRunning _ fun _ _ hrun => ?_
      rw [Option.some.injEq] at hrun
      subst hrun
      rcases hr with hr | hr <;> cases hr
  | destroyStore =>
      have hrun := hs.setRunning (some .destroyCallback) (by simp)
      exact ⟨hrun.delivered, hrun.outstanding⟩
  | endDestroyed hrun =>
      have hdone := hs.setRunning none (by simp)
      exact ⟨hdone.delivered, hdone.outstanding⟩
  | _ => exact ⟨hs.delivered, hs.outstanding⟩

/-- A string is written or destroyed: what was promised of it is still there exactly when it is a
prefix of what is there now. -/
theorem passesOn_update_iff (hs : PassesOn s) {cell : Cell} {content : Option Bytes} :
    PassesOn { s with strings := Function.update s.strings cell content } ↔
      ∀ promised, s.refers cell promised → ∃ data, content = some data ∧ promised <+: data := by
  constructor
  · rintro hs' promised ⟨len, hmem⟩
    obtain ⟨data, hdata, -, hpre⟩ := read_chars.1 (hs'.outstanding _ _ hmem)
    dsimp only at hdata
    rw [Function.update_self] at hdata
    exact ⟨data, hdata, hpre⟩
  · intro hkeep
    refine ⟨hs.delivered, ?_⟩
    intro payload promised hmem
    have hread := hs.outstanding payload promised hmem
    cases payload with
    | copy bytes => exact hread
    | chars cell' len =>
        obtain ⟨old, hold, hlen, hpre⟩ := read_chars.1 hread
        -- Only a functor that refers to the cell can tell the difference.
        by_cases hcell : cell' = cell
        · subst hcell
          obtain ⟨data, hdata, hpre'⟩ := hkeep promised ⟨len, hmem⟩
          exact read_chars.2 ⟨data, by simpa using hdata, hlen, hpre'⟩
        · refine read_chars.2 ⟨old, ?_, hlen, hpre⟩
          dsimp only
          rw [Function.update_of_ne hcell, hold]

/-! ## Runs -/

theorem step_passesOn_iff (hargs : ArgsKept s) (hs : PassesOn s) (h : step s e = some s') :
    PassesOn s' ↔ KeepsBytes s e := by
  by_cases he : e.WritesString
  · cases step_moves h with
    | assign hidle =>
        rw [passesOn_update_iff hs]
        simp [KeepsBytes]
    | destroy hidle =>
        rw [passesOn_update_iff hs]
        simp [KeepsBytes]
    | _ => exact he.elim
  · refine ⟨fun _ => ?_, fun _ => step_passesOn hargs hs he h⟩
    cases e with
    | assign t i data => exact absurd trivial he
    | destroy t i => exact absurd trivial he
    | _ => trivial

/-- In the runs of an established connection, whoever uses it, `sendInLoop` is given what the argument
held when `send` was called exactly when no string is destroyed, or changed in these bytes, while a
functor refers to it. -/
theorem bytes_passed_on_iff {c : TcpConnection} {base : Thread} {holders : List Thread}
    {strings : Cell → Option Bytes} {es : List Event} {t : State}
    (hrun : Run step (State.start c base holders strings) es t) :
    AllAlong step (State.start c base holders strings) es PassesOn ↔
      RunWithin step KeepsBytes (State.start c base holders strings) es t := by
  have hargs : ArgsKept (State.start c base holders strings) := fun _ _ _ h => nomatch h
  have hstart : PassesOn (State.start c base holders strings) :=
    ⟨fun d hd => (nomatch hd), fun _ _ hmem => (nomatch hmem)⟩
  exact allAlong_iff_runWithin (I := ArgsKept)
    (fun s e t hargs hs hstep =>
      ⟨step_passesOn_iff hargs hs hstep, fun _ => step_argsKept hargs hstep⟩)
    hrun hargs hstart

set_option maxRecDepth 20000 in
/-- A string and a buffer are sent by another thread, and the string is destroyed after the loop thread
has written it. -/
theorem bytes_passed_on_waited :
    AllAlong step (State.start freshConnection (.other 0) [.other 1] (fun _ => some [65, 66]))
      [.sendTest (.other 1) (.string 0), .sendRun (.other 1) (.wrote 0),
        .sendTest (.other 1) (.buffer [67]), .sendRun (.other 1) (.wrote 0), .doPendingFunctors,
        .beginFunctor, .runFunctor (.wrote 2), .destroy (.other 1) 0, .beginFunctor,
        .runFunctor (.wrote 1)] PassesOn := by
  have hwithin : ∃ t, RunWithin step KeepsBytes
      (State.start freshConnection (.other 0) [.other 1] (fun _ => some [65, 66]))
      [.sendTest (.other 1) (.string 0), .sendRun (.other 1) (.wrote 0),
        .sendTest (.other 1) (.buffer [67]), .sendRun (.other 1) (.wrote 0), .doPendingFunctors,
        .beginFunctor, .runFunctor (.wrote 2), .destroy (.other 1) 0, .beginFunctor,
        .runFunctor (.wrote 1)] t := by
    refine ⟨_, .cons trivial rfl (.cons trivial rfl (.cons trivial rfl (.cons trivial rfl
      (.cons trivial rfl (.cons trivial rfl (.cons trivial rfl (.cons ?_ rfl (.cons trivial rfl
        (.cons trivial rfl (.nil _))))))))))⟩
    -- Only the functor of the buffer is left.
    rintro promised ⟨len, hmem⟩
    cases hmem with
    | tail _ hmem => cases hmem
  obtain ⟨t, hwithin⟩ := hwithin
  exact (bytes_passed_on_iff hwithin.toRun).2 hwithin

/-- A string is sent by another thread and overwritten before the loop thread comes to the functor:
`"XY"` is written, not `"AB"`. -/
theorem not_bytes_passed_on :
    ¬ ∀ (c : TcpConnection) (base : Thread) (holders : List Thread) (strings : Cell → Option Bytes)
      (es : List Event) (s : State), Run step (State.start c base holders strings) es s →
      ∀ d ∈ s.delivered, ∃ r, d.before.sendInLoop d.promised d.answer = .ok r ∧ d.outcome = some r := by
  intro hall
  obtain ⟨s, hexec, d, hd, hpromised, hwrote⟩ : ∃ s,
      exec step (State.start freshConnection (.other 0) [.other 1] (fun _ => some [65, 66]))
        [.sendTest (.other 1) (.string 0), .sendRun (.other 1) (.wrote 0),
          .assign (.other 1) 0 [88, 89], .doPendingFunctors, .beginFunctor,
          .runFunctor (.wrote 2)] = some s ∧
      ∃ d, s.delivered = [d] ∧
        (d.before.sendInLoop d.promised d.answer).map Prod.snd = .ok [.write [65, 66] (.wrote 2)] ∧
        d.outcome.map Prod.snd = some [.write [88, 89] (.wrote 2)] :=
    ⟨_, rfl, _, rfl, rfl, rfl⟩
  obtain ⟨r, hsend, houtcome⟩ := hall _ _ _ _ _ s (run_of_exec hexec) d (by simp [hd])
  rw [hsend] at hpromised
  rw [houtcome] at hwrote
  simp [Except.map] at hpromised hwrote
  simp [hpromised] at hwrote

end SharedConnection
end MyServer
end MyCppCode
