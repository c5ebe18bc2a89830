import ControlStore.Decoder.Builder
import ControlStore.Proofs.SizedStatements

/-! # Well-nested events

`WellNested events body` is the grammar of the events that a builder takes: stores and switches at top
level and inside a case, cases and at most one default case directly inside a switch, everything
closed.  It goes along with the statements that the events stand for, in the order of the events, with
the default case kept apart wherever it stands among the cases.

A builder that is given such events ends up with these statements (`WellNested.run_ok`).  The other way
round, what is open after some events is always a row of well-nested pieces (`Builder.Holds`), and one
more event keeps it so or is refused (`Builder.Holds.step`).  So a procedure is recorded exactly if the
events are well nested (`Procedure.ofEvents_ok_iff_wellNested`). -/

namespace ControlStore

/-! ### The events of a statement tree -/

mutual

/-- The events that record a statement. -/
def Stmt.events : Stmt → List BuildEvent
  | .store dst src => [.store dst src]
  | .switch selector cases fallback =>
      .beginSwitch selector :: (eventsOfCases cases ++ eventsOfFallback fallback ++ [.endSwitch])

/-- The events that record statements one after the other. -/
def eventsOf : List Stmt → List BuildEvent
  | [] => []
  | stmt :: rest => stmt.events ++ eventsOf rest

/-- The events that record the cases of a switch. -/
def eventsOfCases : List (Bits × List Stmt) → List BuildEvent
  | [] => []
  | (label, body) :: rest => .beginCase label :: (eventsOf body ++ .endCase :: eventsOfCases rest)

/-- The events that record the fallback of a switch. -/
def eventsOfFallback : Option (List Stmt) → List BuildEvent
  | none => []
  | some body => .beginDefault :: (eventsOf body ++ [.endCase])

end

/-! ### The grammar of events -/

mutual

/-- The events are well nested at top level or inside a case, and stand for the statements. -/
inductive WellNested : List BuildEvent → List Stmt → Prop
  | nil : WellNested [] []
  | store {dst : Wire} {src : Expr} {events : List BuildEvent} {body : List Stmt}
      (rest : WellNested events body) :
      WellNested (.store dst src :: events) (.store dst src :: body)
  | switch {selector : Expr} {arms events : List BuildEvent} {cases : List (Bits × List Stmt)}
      {fallback : Option (List Stmt)} {body : List Stmt}
      (inner : WellNestedCases arms cases fallback) (rest : WellNested events body) :
      WellNested (.beginSwitch selector :: (arms ++ .endSwitch :: events))
        (.switch selector cases fallback :: body)

/-- The events are well nested directly inside a switch, and stand for its cases and its
fallback. -/
inductive WellNestedCases : List BuildEvent → List (Bits × List Stmt) → Option (List Stmt) → Prop
  | nil : WellNestedCases [] [] none
  | case {label : Bits} {own events : List BuildEvent} {body : List Stmt}
      {cases : List (Bits × List Stmt)} {fallback : Option (List Stmt)}
      (inner : WellNested own body) (rest : WellNestedCases events cases fallback) :
      WellNestedCases (.beginCase label :: (own ++ .endCase :: events)) ((label, body) :: cases) fallback
  | default {own events : List BuildEvent} {body : List Stmt} {cases : List (Bits × List Stmt)}
      (inner : WellNested own body) (rest : WellNestedCases events cases none) :
      WellNestedCases (.beginDefault :: (own ++ .endCase :: events)) cases (some body)

end

/-! ### Sequences of well-nested events -/

theorem WellNested.append {more : List BuildEvent} {next : List Stmt} (hmore : WellNested more next)
    {events : List BuildEvent} {body : List Stmt} :
    WellNested events body → WellNested (events ++ more) (body ++ next)
  | .nil => hmore
  | .store rest => .store (append hmore rest)
  | .switch inner rest => by
      simpa using WellNested.switch inner (append hmore rest)

/-- Of two rows of cases at most one has the default case. -/
theorem WellNestedCases.append {more : List BuildEvent} {next : List (Bits × List Stmt)}
    {last : Option (List Stmt)} (hmore : WellNestedCases more next last) {events : List BuildEvent}
    {cases : List (Bits × List Stmt)} {fallback : Option (List Stmt)}
    (hone : fallback = none ∨ last = none) : WellNestedCases events cases fallback →
      WellNestedCases (events ++ more) (cases ++ next) (fallback.or last)
  | .nil => hmore
  | .case inner rest => by
      simpa using WellNestedCases.case inner (append hmore hone rest)
  | .default inner rest => by
      obtain rfl : last = none := by simpa using hone
      simpa using WellNestedCases.default inner (append hmore (.inl rfl) rest)

mutual

theorem Stmt.wellNested_events : (stmt : Stmt) → WellNested stmt.events [stmt]
  | .store dst src => .store .nil
  | .switch selector cases fallback => by
      have hcases := (wellNested_eventsOfFallback fallback).append (.inl rfl) (wellNested_eventsOfCases cases)
      simpa [Stmt.events] using WellNested.switch hcases .nil

/-- The events of statements are well nested and stand for them. -/
theorem wellNested_eventsOf : (body : List Stmt) → WellNested (eventsOf body) body
  | [] => .nil
  | stmt :: rest => (wellNested_eventsOf rest).append stmt.wellNested_events

theorem wellNested_eventsOfCases : (cases : List (Bits × List Stmt)) →
    WellNestedCases (eventsOfCases cases) cases none
  | [] => .nil
  | (_, body) :: rest => .case (wellNested_eventsOf body) (wellNested_eventsOfCases rest)

theorem wellNested_eventsOfFallback : (fallback : Option (List Stmt)) →
    WellNestedCases (eventsOfFallback fallback) [] fallback
  | none => .nil
  | some body => .default (wellNested_eventsOf body) .nil

end

/-! ### The wires that events read -/

/-- The wire that an event reads. -/
def BuildEvent.reads : BuildEvent → List Wire
  | .store _ src => src.wire?.toList
  | .beginSwitch selector => selector.wire?.toList
  | _ => []

/-- The wires that events read. -/
def readsOfEvents (events : List BuildEvent) : List Wire := events.flatMap BuildEvent.reads

@[simp] theorem readsOfEvents_nil : readsOfEvents [] = [] := rfl

@[simp] theorem readsOfEvents_cons (event : BuildEvent) (events : List BuildEvent) :
    readsOfEvents (event :: events) = event.reads ++ readsOfEvents events := List.flatMap_cons

@[simp] theorem readsOfEvents_append (events more : List BuildEvent) :
    readsOfEvents (events ++ more) = readsOfEvents events ++ readsOfEvents more := List.flatMap_append

mutual

/-- Well-nested events read what the statements read. -/
theorem WellNested.mem_reads_iff {wire : Wire} {events : List BuildEvent} {body : List Stmt} :
    WellNested events body → (wire ∈ readsOfEvents events ↔ wire ∈ readsOf body)
  | .nil => by simp [readsOf]
  | .store rest => by simp [readsOf, Stmt.reads, BuildEvent.reads, rest.mem_reads_iff]
  | .switch inner rest => by
      simp [readsOf, Stmt.reads, BuildEvent.reads, inner.mem_reads_iff, rest.mem_reads_iff, or_assoc]

theorem WellNestedCases.mem_reads_iff {wire : Wire} {events : List BuildEvent}
    {cases : List (Bits × List Stmt)} {fallback : Option (List Stmt)} :
    WellNestedCases events cases fallback →
      (wire ∈ readsOfEvents events ↔ wire ∈ readsOfCases cases ∨ wire ∈ readsOfFallback fallback)
  | .nil => by simp [readsOfCases, readsOfFallback]
  | .case inner rest => by
      simp [readsOfCases, BuildEvent.reads, inner.mem_reads_iff, rest.mem_reads_iff, or_assoc]
  | .default inner rest => by
      simp [readsOfFallback, BuildEvent.reads, inner.mem_reads_iff, rest.mem_reads_iff, or_comm]

end

namespace WireSet

/-- Sets with the same wires are equal. -/
theorem ext_mem {s t : WireSet} (h : ∀ wire, wire ∈ s.toList ↔ wire ∈ t.toList) : s = t := by
  have hset : ∀ {a b : NatSet}, (∀ i, i ∈ a.keys ↔ i ∈ b.keys) → a = b := by
    intro a b hab
    apply NatMap.ext_get?
    intro i
    have := hab i
    rw [NatMap.mem_keys_iff, NatMap.mem_keys_iff] at this
    cases ha : a.get? i <;> cases hb : b.get? i <;> simp_all
  obtain ⟨sd, si⟩ := s
  obtain ⟨td, ti⟩ := t
  have hdesign : sd = td := hset fun i => by simpa [toList] using h (.design i)
  have hinner : si = ti := hset fun i => by simpa [toList] using h (.inner i)
  rw [hdesign, hinner]

theorem insertAll_append (s : WireSet) (ws more : List Wire) :
    s.insertAll (ws ++ more) = (s.insertAll ws).insertAll more := List.foldl_append

theorem insertAll_congr (s : WireSet) {ws more : List Wire} (h : ∀ wire, wire ∈ ws ↔ wire ∈ more) :
    s.insertAll ws = s.insertAll more := by
  apply ext_mem
  intro wire
  rw [mem_insertAll_iff, mem_insertAll_iff, h]

end WireSet

/-! ### Recording well-nested events -/

/-- The frames that take statements, by the statements in them. -/
inductive Frame.TakesStatements : (List Stmt → Frame) → Prop
  | block : TakesStatements .block
  | case (label : Option Bits) : TakesStatements (.case label)

namespace Builder

theorem run_cons (b : Builder) (event : BuildEvent) (events : List BuildEvent) :
    b.run (event :: events) = b.step event >>= fun next => next.run events := List.foldlM_cons

theorem run_append (b : Builder) (events more : List BuildEvent) :
    b.run (events ++ more) = b.run events >>= fun next => next.run more := List.foldlM_append

theorem push_ok {frame : List Stmt → Frame} (hframe : Frame.TakesStatements frame) (done : List Stmt)
    (outer : List Frame) (reads : WireSet) (stmt : Stmt) :
    push ⟨frame done :: outer, reads⟩ stmt = .ok ⟨frame (done ++ [stmt]) :: outer, reads⟩ := by
  cases hframe <;> rfl

end Builder

open Builder

mutual

/-- Well-nested events append their statements to the innermost frame. -/
theorem WellNested.run_ok {events : List BuildEvent} {body : List Stmt} {frame : List Stmt → Frame}
    (hframe : Frame.TakesStatements frame) (done : List Stmt) (outer : List Frame) (reads : WireSet) :
    WellNested events body → run ⟨frame done :: outer, reads⟩ events =
      .ok ⟨frame (done ++ body) :: outer, reads.insertAll (readsOfEvents events)⟩
  | .nil => by simp [run, WireSet.insertAll]
  | @WellNested.store dst src _ _ rest => by
      have hstore : step ⟨frame done :: outer, reads⟩ (.store dst src) =
          .ok ⟨frame (done ++ [.store dst src]) :: outer, reads.insertAll src.wire?.toList⟩ :=
        push_ok hframe done outer _ _
      rw [run_cons, hstore, ok_bind, rest.run_ok hframe]
      simp [BuildEvent.reads, WireSet.insertAll_append]
  | @WellNested.switch selector _ _ cases fallback _ inner rest => by
      have hbegin : step ⟨frame done :: outer, reads⟩ (.beginSwitch selector) =
          .ok ⟨.switch selector [] none :: frame done :: outer,
            reads.insertAll selector.wire?.toList⟩ := rfl
      have hend : ∀ reads, step ⟨.switch selector cases fallback :: frame done :: outer, reads⟩ .endSwitch =
          .ok ⟨frame (done ++ [.switch selector cases fallback]) :: outer, reads⟩ :=
        fun reads => push_ok hframe done outer reads _
      rw [run_cons, hbegin, ok_bind, run_append, inner.run_ok selector [] _ _ (.inl rfl), ok_bind,
        List.nil_append, Option.none_or, run_cons, hend, ok_bind, rest.run_ok hframe]
      simp [BuildEvent.reads, WireSet.insertAll_append]

/-- Well-nested cases are added to the switch around them. -/
theorem WellNestedCases.run_ok {events : List BuildEvent} {cases : List (Bits × List Stmt)}
    {given fallback : Option (List Stmt)} (selector : Expr) (done : List (Bits × List Stmt))
    (outer : List Frame) (reads : WireSet) (hone : given = none ∨ fallback = none) :
    WellNestedCases events cases fallback → run ⟨.switch selector done given :: outer, reads⟩ events =
      .ok ⟨.switch selector (done ++ cases) (given.or fallback) :: outer,
        reads.insertAll (readsOfEvents events)⟩
  | .nil => by simp [run, WireSet.insertAll]
  | @WellNestedCases.case label _ _ body _ _ inner rest => by
      have hbegin : step ⟨.switch selector done given :: outer, reads⟩ (.beginCase label) =
          .ok ⟨.case (some label) [] :: .switch selector done given :: outer, reads⟩ := rfl
      have hend : ∀ reads, step ⟨.case (some label) body :: .switch selector done given :: outer, reads⟩
          .endCase = .ok ⟨.switch selector (done ++ [(label, body)]) given :: outer, reads⟩ := fun _ => rfl
      rw [run_cons, hbegin, ok_bind, run_append, inner.run_ok (.case (some label)), ok_bind,
        List.nil_append, run_cons, hend, ok_bind, rest.run_ok selector _ _ _ hone]
      simp [BuildEvent.reads, WireSet.insertAll_append]
  | @WellNestedCases.default _ _ body _ inner rest => by
      obtain rfl : given = none := by simpa using hone
      have hbegin : step ⟨.switch selector done none :: outer, reads⟩ .beginDefault =
          .ok ⟨.case none [] :: .switch selector done none :: outer, reads⟩ := rfl
      have hend : ∀ reads, step ⟨.case none body :: .switch selector done none :: outer, reads⟩ .endCase =
          .ok ⟨.switch selector done (some body) :: outer, reads⟩ := fun _ => rfl
      rw [run_cons, hbegin, ok_bind, run_append, inner.run_ok (.case none), ok_bind, List.nil_append,
        run_cons, hend, ok_bind, rest.run_ok selector _ _ _ (.inr rfl)]
      simp [BuildEvent.reads, WireSet.insertAll_append]

end

theorem WellNested.ofEvents_ok {events : List BuildEvent} {body : List Stmt} (h : WellNested events body)
    (name : String) : Procedure.ofEvents name events = .ok (.ofBody name body) := by
  have hrun := h.run_ok .block [] [] .empty
  rw [List.nil_append, WireSet.insertAll_congr _ fun wire => h.mem_reads_iff] at hrun
  unfold Procedure.ofEvents Builder.empty
  rw [hrun]
  rfl

/-! ### What is open after some events -/

namespace Builder

/-- The event that opens a case; the default case has no label. -/
def opening : Option Bits → BuildEvent
  | some label => .beginCase label
  | none => .beginDefault

/-- The stack that some events lead to: a row of well-nested pieces, each opened inside the one
before.  A switch may stand directly inside a switch, a case stands in a switch only. -/
inductive Holds : List Frame → List BuildEvent → Prop
  | block {events : List BuildEvent} {body : List Stmt} (own : WellNested events body) :
      Holds [.block body] events
  | switch {stack : List Frame} {before arms : List BuildEvent} {selector : Expr}
      {cases : List (Bits × List Stmt)} {fallback : Option (List Stmt)} (outer : Holds stack before)
      (own : WellNestedCases arms cases fallback) :
      Holds (.switch selector cases fallback :: stack) (before ++ .beginSwitch selector :: arms)
  | case {stack : List Frame} {before events : List BuildEvent} {selector : Expr}
      {cases : List (Bits × List Stmt)} {fallback : Option (List Stmt)} {label : Option Bits}
      {body : List Stmt} (outer : Holds (.switch selector cases fallback :: stack) before)
      (single : label = none → fallback = none) (own : WellNested events body) :
      Holds (.case label body :: .switch selector cases fallback :: stack)
        (before ++ opening label :: events)

/-- The events were recorded, or the last one was refused; the stack was in order all the time. -/
def Keeps (events : List BuildEvent) : Checked Builder → Prop
  | .ok b => Holds b.stack events
  | .error fault => fault ≠ .brokenNesting

variable {b : Builder} {events more : List BuildEvent} {stack : List Frame}

theorem Holds.extend {frame : List Stmt → Frame} (hframe : Frame.TakesStatements frame) {done body : List Stmt}
    (h : Holds (frame done :: stack) events) (hmore : WellNested more body) :
    Holds (frame (done ++ body) :: stack) (events ++ more) := by
  cases hframe with
  | block =>
      cases h with
      | block own => exact .block (hmore.append own)
  | case label =>
      cases h with
      | case outer single own => simpa using Holds.case outer single (hmore.append own)

theorem Holds.push (h : Holds b.stack events) {stmt : Stmt} (hmore : WellNested more [stmt]) :
    Keeps (events ++ more) (b.push stmt) := by
  unfold Builder.push
  split
  · next hstack => exact (hstack ▸ h).extend .block hmore
  · next label _ _ hstack => exact (hstack ▸ h).extend (.case label) hmore
  · exact Fault.noConfusion

/-- A finished case goes to the switch around it. -/
theorem Holds.endCase {label : Option Bits} {body : List Stmt} (h : Holds (.case label body :: stack) events)
    (reads : WireSet) : Keeps (events ++ [.endCase]) (addCase ⟨stack, reads⟩ label body) := by
  cases h with
  | case outer single own =>
      cases outer with
      | switch outer arms =>
          cases label with
          | some label =>
              have hcase : WellNestedCases (.beginCase label :: (_ ++ [.endCase])) [(label, body)] none :=
                .case own .nil
              simpa [opening, Keeps, addCase] using Holds.switch outer (hcase.append (.inr rfl) arms)
          | none =>
              obtain rfl := single rfl
              have hcase := WellNestedCases.default own .nil
              simpa [opening, Keeps, addCase] using Holds.switch outer (hcase.append (.inl rfl) arms)

/-- One more event is recorded with the stack in order, or it is refused. -/
theorem Holds.step (h : Holds b.stack events) (event : BuildEvent) :
    Keeps (events ++ [event]) (b.step event) := by
  obtain ⟨stack, reads⟩ := b
  cases event with
  | store dst src => exact Holds.push (b := noteRead ⟨stack, reads⟩ src) h (.store .nil)
  | beginSwitch selector => exact .switch h .nil
  | beginCase label =>
      simp only [Builder.step]
      split
      · exact .case h nofun .nil
      · exact Fault.noConfusion
  | beginDefault =>
      simp only [Builder.step]
      split
      · exact .case h (fun _ => rfl) .nil
      · exact Fault.noConfusion
  | endCase =>
      simp only [Builder.step]
      split
      · exact h.endCase reads
      · exact Fault.noConfusion
  | endSwitch =>
      simp only [Builder.step]
      split
      · next selector cases fallback outer =>
        cases h with
        | switch outer own =>
            have hswitch : WellNested (.beginSwitch selector :: (_ ++ [.endSwitch]))
                [.switch selector cases fallback] := .switch own .nil
            simpa using Holds.push (b := ⟨_, reads⟩) outer hswitch
      · exact Fault.noConfusion

theorem Holds.run (h : Holds b.stack events) (more : List BuildEvent) : Keeps (events ++ more) (b.run more) := by
  induction more generalizing b events with
  | nil => simpa [Keeps, Builder.run] using h
  | cons event more ih =>
      have hstep := h.step event
      rw [run_cons]
      cases hresult : b.step event with
      | error fault =>
          rw [hresult] at hstep
          exact hstep
      | ok next =>
          rw [hresult] at hstep
          simpa using ih hstep

/-- Nothing is left open exactly if the events are well nested. -/
theorem Holds.complete (h : Holds b.stack events) (name : String) :
    b.complete name = .error .unterminatedSwitch ∨ ∃ body, WellNested events body := by
  unfold Builder.complete
  split
  · next hstack =>
    rw [hstack] at h
    cases h with
    | block own => exact .inr ⟨_, own⟩
  · next hstack =>
    rw [hstack] at h
    cases h with
    | block own => exact .inr ⟨_, own⟩
    | switch outer own => cases outer
  · exact .inl rfl

end Builder

namespace Procedure

/-- Events that are not well nested are refused, at the latest when the body is completed. -/
theorem ofEvents_cases (name : String) (events : List BuildEvent) :
    (∃ body, WellNested events body) ∨
      ∃ fault, ofEvents name events = .error fault ∧ fault ≠ .brokenNesting := by
  have hkeeps : Keeps ([] ++ events) (Builder.empty.run events) := Holds.run (.block .nil) events
  unfold ofEvents
  cases hrun : Builder.empty.run events with
  | error fault =>
      rw [hrun] at hkeeps
      exact .inr ⟨fault, rfl, hkeeps⟩
  | ok b =>
      rw [hrun] at hkeeps
      rcases Holds.complete hkeeps name with hcomplete | hnested
      · exact .inr ⟨_, hcomplete, Fault.noConfusion⟩
      · exact .inl hnested

/-- A procedure is recorded exactly if the events are well nested.  Its body is the one list of
statements that the events stand for, and it reads the wires of their sources and selectors.  The events
of any statements record these statements, and the stack of the builder is never out of order. -/
theorem ofEvents_ok_iff_wellNested (name : String) (events : List BuildEvent) :
    ((∃ p, ofEvents name events = .ok p) ↔ ∃ body, WellNested events body) ∧
      (∀ p, ofEvents name events = .ok p → p.name = name ∧
        (∀ body, WellNested events body ↔ body = p.body) ∧
        ∀ wire, wire ∈ p.reads.toList ↔ wire ∈ readsOf p.body) ∧
      (∀ body, ofEvents name (eventsOf body) = .ok (ofBody name body)) ∧
      ofEvents name events ≠ .error .brokenNesting := by
  have hreplay := fun body => (wellNested_eventsOf body).ofEvents_ok name
  rcases ofEvents_cases name events with ⟨body, hbody⟩ | ⟨fault, herror, hfault⟩
  · have hok := hbody.ofEvents_ok name
    refine ⟨⟨fun _ => ⟨body, hbody⟩, fun _ => ⟨_, hok⟩⟩, fun p hp => ?_, hreplay, fun hbroken => ?_⟩
    · obtain rfl := Except.ok.inj (hok.symm.trans hp)
      refine ⟨rfl, fun other => ⟨fun hother => ?_, fun heq => heq ▸ hbody⟩, fun wire => mem_reads_ofBody⟩
      have hsame := Except.ok.inj ((hother.ofEvents_ok name).symm.trans hp)
      exact congrArg Procedure.body hsame
    · cases hok.symm.trans hbroken
  · refine ⟨⟨?_, ?_⟩, fun p hp => ?_, hreplay, fun hbroken => ?_⟩
    · rintro ⟨p, hp⟩
      cases herror.symm.trans hp
    · rintro ⟨body, hbody⟩
      cases herror.symm.trans (hbody.ofEvents_ok name)
    · cases herror.symm.trans hp
    · exact hfault (Except.error.inj (herror.symm.trans hbroken))

end Procedure

end ControlStore
