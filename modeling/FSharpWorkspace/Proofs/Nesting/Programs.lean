import FSharpWorkspace.Cache.Program
import FSharpWorkspace.Proofs.Nesting.InProgress
/-!
# Programs as events

`Op.run` runs a program by recursion on its text, where the body of a `get` stands inside it. What
it does to the cache are the events of a single thread, one after the other (`Op.runAll_events`), so
whatever holds of activities holds of programs. A program that has run to its end, by itself or by a
panic, leaves nothing in progress (`Op.runAll_idle`).

Operations that let other threads run are left out (`Op.isAlone`).
-/

set_option autoImplicit false

namespace FSharpWorkspace.Cache

namespace Op

mutual

/-- Whether an operation is done by one thread alone. -/
def isAlone (op : Op) : Bool :=
  match op with
  | .get _ _ body _ _ _ => areAlone body
  | .parallel _ _ _ => false
  | .ring _ => false
  | _ => true

/-- `isAlone` for every operation of a list. -/
def areAlone (ops : List Op) : Bool :=
  match ops with
  | [] => true
  | op :: rest => isAlone op && areAlone rest

end

end Op

/-! ## Events of programs -/

section

variable {ν : Type} {me : Thread} {events events' body : List (Event ν)} {c c₁ c₂ c₃ c' : Cache ν}
  {runs : List Run}

/-- Some events that leave the suppliers as they are, but for what these note. -/
def Activity.Spans (me : Thread) (events : List (Event ν)) (runs : List Run)
    (c c' : Cache ν) : Prop :=
  Activity.run me events ⟨c, runs⟩ = some ⟨c', runs.map (·.note (lost events))⟩

theorem Activity.Spans.nil (me : Thread) (runs : List Run) (c : Cache ν) :
    Activity.Spans me [] runs c c := by
  simp [Activity.Spans, Activity.run, lost]

theorem Activity.Spans.append (h : Activity.Spans me events runs c c₁)
    (h' : Activity.Spans me events' (runs.map (·.note (lost events))) c₁ c') :
    Activity.Spans me (events ++ events') runs c c' := by
  refine (Activity.run_append.mpr ⟨_, h, h'⟩).trans ?_
  simp [lost, Run.note_note, Function.comp_def]

theorem Activity.Spans.single {event : Event ν}
    (h : Activity.after me ⟨c, runs⟩ event = some ⟨c', runs.map (·.note event.lost)⟩) :
    Activity.Spans me [event] runs c c' :=
  (Activity.run_cons.mpr ⟨_, h, rfl⟩).trans (by simp [lost])

/-- A supplier from its start to its end. -/
theorem Activity.Spans.supplier {id id' : Identity} {s : Serial} (ending : Event ν)
    (hget : c.start me id = (.claimed s id', c₁))
    (hbody : Activity.Spans me body (⟨id', s, []⟩ :: runs) c₁ c₂) (hlost : ending.lost = [])
    (hend : ∀ ls outer, Activity.after me ⟨c₂, ⟨id', s, ls⟩ :: outer⟩ ending = some ⟨c₃, outer⟩) :
    Activity.Spans me (.get id :: (body ++ [ending])) runs c c₃ := by
  have hstart : Activity.after me ⟨c, runs⟩ (.get id) = some ⟨c₁, ⟨id', s, []⟩ :: runs⟩ := by
    simp [Activity.after, hget]
  refine Activity.run_cons.mpr ⟨_, hstart, Activity.run_append.mpr ⟨_, hbody, ?_⟩⟩
  refine Activity.run_cons.mpr ⟨_, hend _ _, ?_⟩
  have hrequest : (Event.get id : Event ν).lost = [] := rfl
  simp [Activity.run, lost, hrequest, hlost]

end

namespace Op

mutual

/-- What an operation does to the cache are events of its thread. -/
theorem run_events (op : Op) (h : op.isAlone = true) {σ : Session} {runs : List Run}
    (hσ : Activity.Sound Session.me ⟨σ.cache, runs⟩) :
    ∃ events, Activity.Spans Session.me events runs σ.cache (op.run σ).2.cache := by
  match op with
  | .get id value body stale panics caught =>
      rw [isAlone] at h
      rcases start_cases hσ.lone hσ.owned id
        with ⟨v, hs, -⟩ | ⟨s, e, hs, -⟩ | ⟨s, id', c, hs, hc, -⟩
      · refine ⟨[], ?_⟩
        rw [run, hs]
        exact .nil _ _ _
      · refine ⟨[], ?_⟩
        rw [run, hs]
        exact .nil _ _ _
      · have hbody := runAll_events body h (σ := { σ with cache := c, calls := σ.calls + 1 })
          (hσ.claim hc (start_waits hs))
        obtain ⟨events, hevents⟩ := hbody
        rw [run, hs]
        dsimp only
        split
        · exact ⟨_, .supplier .panics hs hevents rfl fun _ _ => rfl⟩
        · exact ⟨_, .supplier (.returns value fun _ l => stale.contains l) hs hevents rfl
            fun _ _ => rfl⟩
  | .peek l => exact ⟨[], .nil _ _ _⟩
  | .invalidate l => exact ⟨[.invalidate l], .single rfl⟩
  | .computed => exact ⟨[], .nil _ _ _⟩
  | .size => exact ⟨[], .nil _ _ _⟩
  | .keep id name => exact ⟨[.keep id], .single (by simp [Activity.after, Event.lost, run])⟩
  | .entry name =>
      refine ⟨[], ?_⟩
      rw [run]
      split
      · exact .nil _ _ _
      · exact .nil _ _ _
  | .parallel _ _ _ => cases h
  | .ring _ => cases h
  | .misused m => exact ⟨[], .nil _ _ _⟩

theorem runAll_events (ops : List Op) (h : areAlone ops = true) {σ : Session} {runs : List Run}
    (hσ : Activity.Sound Session.me ⟨σ.cache, runs⟩) :
    ∃ events, Activity.Spans Session.me events runs σ.cache (runAll ops σ).2.cache := by
  match ops with
  | [] => exact ⟨[], .nil _ _ _⟩
  | op :: rest =>
      rw [areAlone, Bool.and_eq_true] at h
      obtain ⟨events, hop⟩ := run_events op h.1 hσ
      rw [runAll]
      dsimp only
      split
      · exact ⟨events, hop⟩
      · obtain ⟨events', hrest⟩ := runAll_events rest h.2 (hσ.run hop)
        exact ⟨events ++ events', hop.append hrest⟩

end

/-- What a program leaves is what some events leave. -/
theorem runAll_reached {ops : List Op} (h : areAlone ops = true) :
    Activity.Reached Session.me ⟨(runAll ops Session.start).2.cache, []⟩ := by
  obtain ⟨events, hevents⟩ := runAll_events ops h (σ := Session.start) (.start Session.me)
  exact ⟨events, hevents⟩

/-- A program that has ended, by itself or by a panic, leaves nothing in progress
and nobody waiting. -/
theorem runAll_idle {ops : List Op} (h : areAlone ops = true) :
    (runAll ops Session.start).2.cache.waits = .empty ∧
      ∀ (s : Serial) e owner marks, (runAll ops Session.start).2.cache.entries[s]? = some e →
        e.state ≠ .inProgress owner marks :=
  (runAll_reached h).sound.idle rfl

end Op

end FSharpWorkspace.Cache
