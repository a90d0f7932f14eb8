import ExportDesk.Host
import ExportDesk.Proofs.Files.Changes

/-!
# Work on the host that spares a file

`OnHost.Spares` says of work on the host that a file stays as it is whatever comes of the work, and
what is known of its result. The rules put the claims about longer work together from those about
its steps.
-/

namespace ExportDesk

/-- What work on the host leaves alone that moves no links: all but the record and the entries of
the file system. -/
structure Host.SameWorld (h h' : Host) : Prop where
  environment : h'.environment = h.environment
  launcher : h'.launcher = h.launcher
  clock : h'.clock = h.clock
  choices : h'.choices = h.choices
  current : h'.files.current = h.files.current
  links : h'.files.links = h.files.links

namespace Host.SameWorld

theorem refl (h : Host) : SameWorld h h := ⟨rfl, rfl, rfl, rfl, rfl, rfl⟩

theorem trans {h₁ h₂ h₃ : Host} (h : SameWorld h₁ h₂) (h' : SameWorld h₂ h₃) :
    SameWorld h₁ h₃ :=
  ⟨h'.environment.trans h.environment, h'.launcher.trans h.launcher, h'.clock.trans h.clock,
    h'.choices.trans h.choices, h'.current.trans h.current, h'.links.trans h.links⟩

theorem reached {h h' : Host} (hs : SameWorld h h') (q : Path) :
    h'.files.reached q = h.files.reached q := FileSystem.reached_congr hs.current hs.links q

end Host.SameWorld

/-- From one host to a later one, with the file at a path as it was. -/
structure Host.Spares (p : Path) (h h' : Host) : Prop where
  world : SameWorld h h'
  files : FileSystem.Spares p h.files h'.files

namespace Host.Spares

variable {p : Path}

theorem refl (p : Path) (h : Host) : Spares p h h := ⟨.refl h, .refl p h.files⟩

theorem trans {h₁ h₂ h₃ : Host} (h : Spares p h₁ h₂) (h' : Spares p h₂ h₃) : Spares p h₁ h₃ :=
  ⟨h.world.trans h'.world, h.files.trans h'.files⟩

end Host.Spares

/-- No program that can be started changes the file at the path. -/
def Launcher.Spares (p : Path) (launcher : Launcher) : Prop :=
  ∀ env program arguments fs,
    FileSystem.Spares p fs ((launcher env program arguments).run fs).2

namespace OnHost

theorem run_disk {α : Type} (d : Disk α) (h : Host) :
    (disk d).run h =
      ((d.run.run h.files).1, { h with files := (d.run.run h.files).2 }) := rfl

variable {α β : Type} {h₀ : Host} {p : Path} {Q : α → Prop} {R : β → Prop}

/-- Begun anywhere after `h₀` with the file spared so far, the work spares it too, and its result
satisfies `Q`. -/
def Spares (h₀ : Host) (p : Path) (m : OnHost α) (Q : α → Prop) : Prop :=
  ∀ h, h₀.Spares p h → h₀.Spares p (m.run h).2 ∧ Q (m.run h).1

namespace Spares

theorem pure {a : α} (ha : Q a) : Spares h₀ p (pure a) Q := fun _ hs => ⟨hs, ha⟩

theorem bind {m : OnHost α} {f : α → OnHost β} (hm : Spares h₀ p m Q)
    (hf : ∀ a, Q a → Spares h₀ p (f a) R) : Spares h₀ p (m >>= f) R := by
  intro h hs
  obtain ⟨hs', ha⟩ := hm h hs
  exact hf _ ha _ hs'

theorem weaken {Q' : α → Prop} {m : OnHost α} (hm : Spares h₀ p m Q) (hQ : ∀ a, Q a → Q' a) :
    Spares h₀ p m Q' := fun h hs => ⟨(hm h hs).1, hQ _ (hm h hs).2⟩

theorem get_bind {f : Host → OnHost β} (hf : ∀ h, h₀.Spares p h → Spares h₀ p (f h) R) :
    Spares h₀ p (get >>= f) R := fun h hs => hf h hs h hs

theorem enter (e : Entry) : Spares h₀ p (enter e) fun _ => True :=
  fun _ hs => ⟨hs.trans ⟨⟨rfl, rfl, rfl, rfl, rfl, rfl⟩, .refl p _⟩, trivial⟩

theorem note (level : LogLevel) (source : Source) (message : String) :
    Spares h₀ p (note level source message) fun _ => True := enter _

theorem printLine (s : OutputStream) (text : String) :
    Spares h₀ p (printLine s text) fun _ => True := enter _

/-- The answer is the one that was due from the start. -/
theorem ask (q : Question) :
    Spares h₀ p (OnHost.ask q) fun chosen => chosen = h₀.choices q :=
  bind (enter _) fun _ _ => get_bind fun h hs => pure (by rw [hs.world.choices])

theorem disk {d : Disk α} (hd : Disk.Spares h₀.files p d) :
    Spares h₀ p (disk d) fun _ => True := by
  intro h hs
  have hfiles := hd h.files hs.world.current hs.world.links
  refine ⟨hs.trans ⟨⟨rfl, rfl, rfl, rfl, hfiles.current, hfiles.links⟩, hfiles⟩, trivial⟩

theorem launch (hl : h₀.launcher.Spares p) (program : String) (arguments : List String) :
    Spares h₀ p (launch program arguments) fun _ => True := by
  refine get_bind fun h hs => ?_
  have hfiles := hl h.environment program arguments h.files
  rw [← hs.world.launcher] at hfiles
  have hset : Spares h₀ p (set { h with
      files := ((h.launcher h.environment program arguments).run h.files).2 })
      fun _ => True :=
    fun _ _ => ⟨hs.trans ⟨⟨rfl, rfl, rfl, rfl, hfiles.current, hfiles.links⟩, hfiles⟩, trivial⟩
  refine bind hset fun _ _ => ?_
  split
  · exact bind (enter _) fun _ _ => pure trivial
  · exact pure trivial

end Spares

/-- Begun anywhere after `h₀` with the file spared so far, the work spares it up to some point, and
from there `S` leads to its end. -/
def SparesUntil (h₀ : Host) (p : Path) (m : OnHost α) (S : Host → Host → Prop) : Prop :=
  ∀ h, h₀.Spares p h → ∃ h', h₀.Spares p h' ∧ S h' (m.run h).2

namespace SparesUntil

variable {S : Host → Host → Prop}

theorem bind {m : OnHost α} {f : α → OnHost β} (hm : Spares h₀ p m Q)
    (hf : ∀ a, Q a → SparesUntil h₀ p (f a) S) : SparesUntil h₀ p (m >>= f) S := by
  intro h hs
  obtain ⟨hs', ha⟩ := hm h hs
  exact hf _ ha _ hs'

/-- Work that spares the file throughout. -/
theorem ofSpares {m : OnHost α} (hm : Spares h₀ p m Q) (hS : ∀ h, S h h) :
    SparesUntil h₀ p m S := fun h hs => ⟨_, (hm h hs).1, hS _⟩

theorem weaken {S' : Host → Host → Prop} {m : OnHost α} (hm : SparesUntil h₀ p m S)
    (hS : ∀ h h', S h h' → S' h h') : SparesUntil h₀ p m S' := by
  intro h hs
  obtain ⟨h', hs', hend⟩ := hm h hs
  exact ⟨h', hs', hS _ _ hend⟩

/-- The last step, and what is made of its result. -/
theorem last {m : OnHost α} {f : α → β} (hS : ∀ h, S h (m.run h).2) :
    SparesUntil h₀ p (do return f (← m)) S := fun h hs => ⟨h, hs, hS h⟩

end SparesUntil

/-- Begun anywhere after `h₀` with the file spared so far, the work spares it up to some point, `S`
leads to another, and from there the work spares the file as it then is. -/
def SparesAround (h₀ : Host) (p : Path) (m : OnHost α) (S : Host → Host → Prop) : Prop :=
  ∀ h, h₀.Spares p h → ∃ h₂ h₃, h₀.Spares p h₂ ∧ S h₂ h₃ ∧ h₃.Spares p (m.run h).2

namespace SparesAround

variable {S : Host → Host → Prop}

theorem bind {m : OnHost α} {f : α → OnHost β} (hm : Spares h₀ p m Q)
    (hf : ∀ a, Q a → SparesAround h₀ p (f a) S) : SparesAround h₀ p (m >>= f) S := by
  intro h hs
  obtain ⟨hs', ha⟩ := hm h hs
  exact hf _ ha _ hs'

/-- Work up to the step, and then work that spares what the step left. -/
theorem ofUntil {m : OnHost α} {f : α → OnHost β} (hm : SparesUntil h₀ p m S)
    (hf : ∀ a h₂ h₃, h₀.Spares p h₂ → S h₂ h₃ → Spares h₃ p (f a) R) :
    SparesAround h₀ p (m >>= f) S := by
  intro h hs
  obtain ⟨h₂, hs₂, hstep⟩ := hm h hs
  exact ⟨h₂, _, hs₂, hstep, (hf _ h₂ _ hs₂ hstep _ (.refl p _)).1⟩

end SparesAround

end OnHost

end ExportDesk
