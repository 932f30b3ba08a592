import Mathlib

/-! # Runs of a deterministic system, call by call -/
namespace ZeroBugs.Lib.Runs

variable {S T C : Type*}

def run (step : S → C → S) (s : S) (cs : List C) : S := cs.foldl step s

/-- `R` holds at every call of the run, of the state before it and the call. -/
def Along (step : S → C → S) (R : S → C → Prop) : S → List C → Prop
  | _, [] => True
  | s, c :: cs => R s c ∧ Along step R (step s c) cs

def After (step : S → C → S) (P : S → Prop) : S → List C → Prop :=
  Along step fun s c => P (step s c)

instance Along.decidable (step : S → C → S) (R : S → C → Prop) [∀ s c, Decidable (R s c)] :
    ∀ (s : S) (cs : List C), Decidable (Along step R s cs)
  | _, [] => isTrue trivial
  | s, c :: cs =>
    have := Along.decidable step R (step s c) cs
    inferInstanceAs (Decidable (R s c ∧ Along step R (step s c) cs))

variable {step : S → C → S} {Good : S → C → Prop} {s : S}

theorem along_of_invariant (Inv : S → Prop)
    (good : ∀ s c, Inv s → Good s c) (keeps : ∀ s c, Inv s → Inv (step s c)) (hs : Inv s)
    (cs : List C) : Along step Good s cs := by
  induction cs generalizing s with
  | nil => trivial
  | cons c cs ih => exact ⟨good s c hs, ih (keeps s c hs)⟩

theorem along_within (Inv : S → Prop) {Dom : S → C → Prop}
    (good : ∀ s c, Inv s → Dom s c → Good s c)
    (keeps : ∀ s c, Inv s → Dom s c → Inv (step s c)) (hs : Inv s) {cs : List C}
    (hdom : Along step Dom s cs) : Along step Good s cs := by
  induction cs generalizing s with
  | nil => trivial
  | cons c cs ih =>
    obtain ⟨hd, hrest⟩ := hdom
    exact ⟨good s c hs hd, ih (keeps s c hs hd) hrest⟩

theorem along_iff_of_invariant (Inv : S → Prop) {Ok : S → C → Prop}
    (good_iff : ∀ s c, Inv s → (Good s c ↔ Ok s c))
    (keeps : ∀ s c, Inv s → Ok s c → Inv (step s c)) (hs : Inv s) (cs : List C) : Along step Good s
    cs ↔ Along step Ok s cs := by
  induction cs generalizing s with
  | nil => exact Iff.rfl
  | cons c cs ih =>
    constructor
    · rintro ⟨hg, ht⟩
      have hok := (good_iff s c hs).mp hg
      exact ⟨hok, (ih (keeps s c hs hok)).mp ht⟩
    · rintro ⟨hok, ht⟩
      exact ⟨(good_iff s c hs).mpr hok, (ih (keeps s c hs hok)).mpr ht⟩

theorem along_iff_within (Inv : S → Prop) {Dom Ok : S → C → Prop}
    (call : ∀ s c, Inv s → Dom s c → (Good s c ↔ Ok s c) ∧ (Ok s c → Inv (step s c))) (hs : Inv s)
    {cs : List C} (hdom : Along step Dom s cs) :
    Along step Good s cs ↔ Along step Ok s cs := by
  induction cs generalizing s with
  | nil => exact Iff.rfl
  | cons c cs ih =>
    obtain ⟨hd, hrest⟩ := hdom
    obtain ⟨good_iff, keeps⟩ := call s c hs hd
    constructor
    · rintro ⟨hg, ht⟩
      have hok := good_iff.mp hg
      exact ⟨hok, (ih (keeps hok) hrest).mp ht⟩
    · rintro ⟨hok, ht⟩
      exact ⟨good_iff.mpr hok, (ih (keeps hok) hrest).mpr ht⟩

def both (f : S → C → S) (g : T → C → T) (p : S × T) (c : C) : S × T := (f p.1 c, g p.2 c)

theorem along_both_fst {f : S → C → S} {g : T → C → T} {R : S → C → Prop} (p : S × T)
    (cs : List C) : Along (both f g) (fun q c => R q.1 c) p cs ↔ Along f R p.1 cs := by
  induction cs generalizing p with
  | nil => exact Iff.rfl
  | cons c cs ih => exact and_congr Iff.rfl (ih (both f g p c))

theorem along_both_snd {f : S → C → S} {g : T → C → T} {R : T → C → Prop} (p : S × T)
    (cs : List C) : Along (both f g) (fun q c => R q.2 c) p cs ↔ Along g R p.2 cs := by
  induction cs generalizing p with
  | nil => exact Iff.rfl
  | cons c cs ih => exact and_congr Iff.rfl (ih (both f g p c))

end ZeroBugs.Lib.Runs
