import Eudyptula.Lib.Runs

/-! A thread that goes to sleep until it is told to stop: it announces that it will sleep,
looks at the stop flag, and then calls the scheduler. Whoever stops it sets the flag first
and wakes it up afterwards. Any program whose steps are steps of this protocol, or do not
touch it, keeps its guarantee. -/
namespace Sleeper
open Runs

/-- `armed`: sleep announced, flag not looked at yet. `committed`: the flag was clear, the
scheduler is called next. `blocked`: inside that call. -/
inductive Zone
  | outside
  | armed
  | committed
  | blocked
deriving DecidableEq, Repr

/-- `woken` records that the wake-up of the stopping side has been delivered. -/
structure Thread where
  zone : Zone
  interruptible : Bool
  stop : Bool
  woken : Bool

inductive Step (a b : Thread) : Prop
  | prepare (hz : a.zone = .outside) (hb : b = { a with zone := .armed, interruptible := true })
  | seesStop (hz : a.zone = .armed) (hs : a.stop = true) (hb : b = { a with zone := .outside })
  | commits (hz : a.zone = .armed) (hs : a.stop = false) (hb : b = { a with zone := .committed })
  | sleeps (hz : a.zone = .committed) (hi : a.interruptible = true)
      (hb : b = { a with zone := .blocked })
  | resumes (hi : a.interruptible = false) (hb : b = { a with zone := .outside })
  | elsewhere (i : Bool) (hz : a.zone = .outside) (hb : b = { a with interruptible := i })
  | wake (hb : b = { a with interruptible := false })
  | setStop (hb : b = { a with stop := true })
  | stopWake (hs : a.stop = true) (hb : b = { a with interruptible := false, woken := true })

def Asleep (a : Thread) : Prop := a.zone = .blocked ∧ a.interruptible = true

/-- Once the wake-up is delivered the flag is set, and past its test the thread is runnable. -/
def Heeds (a : Thread) : Prop :=
  a.woken = true → a.stop = true ∧
    (a.zone = .committed ∨ a.zone = .blocked → a.interruptible = false)

section
variable {a b : Thread}

theorem Step.heeds (hstep : Step a b) (h : Heeds a) : Heeds b := by
  cases hstep with
  | prepare hz hb | seesStop hz hs hb =>
    subst hb
    exact fun hw => ⟨(h hw).1, nofun⟩
  | resumes hi hb =>
    subst hb
    exact fun hw => ⟨(h hw).1, nofun⟩
  | commits hz hs hb =>
    subst hb
    -- the flag was clear, so nobody has delivered the wake-up
    intro hw
    rw [(h hw).1] at hs
    contradiction
  | sleeps hz hi hb =>
    subst hb
    exact fun hw => ⟨(h hw).1, fun _ => (h hw).2 (.inl hz)⟩
  | elsewhere i hz hb =>
    subst hb
    refine fun hw => ⟨(h hw).1, fun hzone => ?_⟩
    rcases hzone with hzone | hzone <;> rw [hz] at hzone <;> contradiction
  | wake hb =>
    subst hb
    exact fun hw => ⟨(h hw).1, fun _ => rfl⟩
  | setStop hb =>
    subst hb
    exact fun hw => ⟨rfl, (h hw).2⟩
  | stopWake hs hb =>
    subst hb
    exact fun _ => ⟨hs, fun _ => rfl⟩

theorem Step.woken (hstep : Step a b) (h : a.woken = true) : b.woken = true := by
  cases hstep with
  | stopWake hs hb =>
    rw [hb]
  | prepare _ hb | seesStop _ _ hb | commits _ _ hb | sleeps _ _ hb | resumes _ hb
  | elsewhere _ _ hb | wake hb | setStop hb =>
    rw [hb]
    exact h

theorem Heeds.awake (h : Heeds a) (hw : a.woken = true) : ¬ Asleep a := by
  rintro ⟨hz, hi⟩
  rw [(h hw).2 (.inr hz)] at hi
  contradiction

end

section
variable {ε σ : Type*} {step : ε → σ → Option σ} {Inv : σ → Prop} {abs : σ → Thread}

/-- Every step of the program is one of the protocol or leaves it alone. -/
def Simulates (step : ε → σ → Option σ) (Inv : σ → Prop) (abs : σ → Thread) : Prop :=
  ∀ e s t, Inv s → step e s = some t → Inv t ∧ (abs t = abs s ∨ Step (abs s) (abs t))

theorem Simulates.heeds (hsim : Simulates step Inv abs) (es : List ε) {s : σ} (hs : Inv s)
    (hh : Heeds (abs s)) : Always step (fun t => Inv t ∧ Heeds (abs t)) es s := by
  refine always_of_step ?_ es ⟨hs, hh⟩
  rintro e s t ⟨hs, hh⟩ hst
  obtain ⟨ht, hsame | hstep⟩ := hsim e s t hs hst
  · rw [hsame]
    exact ⟨ht, hh⟩
  · exact ⟨ht, hstep.heeds hh⟩

/-- From the delivery of the wake-up on the thread is never asleep, whatever happens. -/
theorem Simulates.awake (hsim : Simulates step Inv abs) {es : List ε} {s t : σ} (hs : Inv s)
    (hh : Heeds (abs s)) (hr : run step es s = some t) (hw : (abs t).woken = true)
    (later : List ε) : Always step (fun u => ¬ Asleep (abs u)) later t := by
  obtain ⟨ht, hht⟩ := (hsim.heeds es hs hh).of_run hr
  have hkept : Always step (fun u => (Inv u ∧ Heeds (abs u)) ∧ (abs u).woken = true) later t := by
    refine always_of_step ?_ later ⟨⟨ht, hht⟩, hw⟩
    rintro e u v ⟨⟨hu, hhu⟩, hwu⟩ huv
    obtain ⟨hv, hsame | hstep⟩ := hsim e u v hu huv
    · rw [hsame]
      exact ⟨⟨hv, hhu⟩, hwu⟩
    · exact ⟨⟨hv, hstep.heeds hhu⟩, hstep.woken hwu⟩
  exact hkept.mono fun u hu => hu.1.2.awake hu.2

end

end Sleeper
