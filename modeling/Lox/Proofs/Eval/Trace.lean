/-
  Lox.Proofs.Eval.Trace — evaluations in time. The trace of an evaluation lists the machines
  that it and its parts, to any depth, start from and leave, in the order in which they occur.
  What every change keeps is kept from each machine to all later ones (`trace_between`), and
  what is invariant under them holds wherever the evaluation gets to (`Invariant.visits`).
-/

import Lox.Proofs.Eval.Flows

namespace Lox

theorem Visits.trans {p e e' : Evaluation} (h : Visits p e) (h' : Visits e e') : Visits p e' := by
  induction h' with
  | here => exact h
  | part _ hpart ih => exact .part ih hpart

/-- What the first step leads to. -/
theorem Visits.cases_part {p e : Evaluation} (h : Visits p e) : e = p ∨ ∃ p', Part p p' ∧ Visits p' e := by
  induction h with
  | here => exact .inl rfl
  | part _ hpart ih =>
    rcases ih with rfl | ⟨p', hp', hvisits⟩
    · exact .inr ⟨_, hpart, .here⟩
    · exact .inr ⟨p', hp', .part hvisits hpart⟩

namespace Evaluation

/-! ## Induction on the parts -/

/-- A bound on how deep the parts of an evaluation nest. -/
def size (p : Evaluation) : Nat :=
  match p.task with
  | .program ss => p.bound + ss.length + 1
  | _ => p.bound

/-- Parts nest less deep than the whole. -/
theorem size_part {p e : Evaluation} (h : Part p e) : e.size < p.size := by
  cases h with
  | topLevel =>
    show _ < _ + _ + 1
    exact Nat.lt_succ_of_le (Nat.le_add_right _ _)
  | rest => exact Nat.lt_succ_self _
  | _ => exact Nat.lt_succ_self _

/-- Induction from the parts of an evaluation to the evaluation. -/
theorem parts_induction {P : Evaluation → Prop} (h : ∀ p, (∀ e, Part p e → P e) → P p) (p : Evaluation) : P p := by
  induction hsize : p.size using Nat.strongRecOn generalizing p with
  | ind k ih => exact h p fun e hpart => ih e.size (hsize ▸ size_part hpart) e rfl

/-! ## Traces -/

def trace (p : Evaluation) : List Machine :=
  p.machine :: (p.parts.attach.flatMap fun e => e.1.trace) ++ [p.final]
termination_by p.size
decreasing_by exact size_part (mem_parts.mp e.2)

theorem trace_eq (p : Evaluation) : p.trace = p.machine :: (p.parts.flatMap trace ++ [p.final]) := by
  rw [trace, List.cons_append]
  simp

/-- The trace has the machines in which evaluations start and end, and no others. -/
theorem mem_trace {p : Evaluation} {m : Machine} :
    m ∈ p.trace ↔ ∃ e, Visits p e ∧ (m = e.machine ∨ m = e.final) := by
  induction p using parts_induction with
  | h p ih =>
    rw [trace_eq, List.mem_cons, List.mem_append, List.mem_flatMap, List.mem_singleton]
    constructor
    · rintro (rfl | ⟨e, he, hm⟩ | rfl)
      · exact ⟨p, .here, .inl rfl⟩
      · have hpart := mem_parts.mp he
        obtain ⟨e', hvisits, hm⟩ := (ih e hpart).mp hm
        exact ⟨e', (Visits.here.part hpart).trans hvisits, hm⟩
      · exact ⟨p, .here, .inr rfl⟩
    · rintro ⟨e, hvisits, hm⟩
      rcases hvisits.cases_part with rfl | ⟨p', hpart, hvisits⟩
      · rcases hm with rfl | rfl
        · exact .inl rfl
        · exact .inr (.inr rfl)
      · exact .inr (.inl ⟨p', mem_parts.mpr hpart, (ih p' hpart).mpr ⟨e, hvisits, hm⟩⟩)

/-- The evaluation that one gets to by going into the parts at these places. -/
def descend (p : Evaluation) : List Nat → Option Evaluation
  | [] => some p
  | i :: path => p.parts[i]?.bind fun e => e.descend path

theorem descend_visits {p e : Evaluation} {path : List Nat} (h : p.descend path = some e) : Visits p e := by
  induction path generalizing p with
  | nil =>
    cases h
    exact .here
  | cons i path ih =>
    obtain ⟨e', he', h⟩ := Option.bind_eq_some_iff.mp h
    exact (Visits.here.part (mem_parts.mp (List.mem_of_getElem? he'))).trans (ih h)

section

variable {R : Machine → Machine → Prop}

structure Between (R : Machine → Machine → Prop) (m : Machine) (between : List Machine) (m' : Machine) : Prop where
  ends : R m m'
  after : ∀ x ∈ between, R m x
  before : ∀ x ∈ between, R x m'
  ordered : between.Pairwise R

variable {p : Evaluation} {m m' m'' : Machine} {l l' : List Machine}

theorem Between.append (htrans : ∀ a b c, R a b → R b c → R a c) (h : Between R m l m') (h' : Between R m' l' m'') :
    Between R m (l ++ l') m'' := by
  refine ⟨htrans _ _ _ h.ends h'.ends, fun x hx => ?_, fun x hx => ?_, ?_⟩
  · rcases List.mem_append.mp hx with hx | hx
    · exact h.after x hx
    · exact htrans _ _ _ h.ends (h'.after x hx)
  · rcases List.mem_append.mp hx with hx | hx
    · exact htrans _ _ _ (h.before x hx) h'.ends
    · exact h'.before x hx
  · exact List.pairwise_append.mpr ⟨h.ordered, h'.ordered, fun x hx y hy => htrans _ _ _ (h.before x hx) (h'.after y hy)⟩

theorem Between.none (h : R m m') : Between R m [] m' :=
  ⟨h, fun _ hx => absurd hx List.not_mem_nil, fun _ hx => absurd hx List.not_mem_nil, .nil⟩

theorem Between.one (h : R m m) : Between R m [m] m := by
  refine ⟨h, fun x hx => ?_, fun x hx => ?_, List.pairwise_singleton R m⟩
  · rwa [List.mem_singleton.mp hx]
  · rwa [List.mem_singleton.mp hx]

variable (hrefl : ∀ m, R m m) (htrans : ∀ a b c, R a b → R b c → R a c)

include hrefl htrans

theorem Moves.relates {pool : List Value} (hacts : ∀ {pool m m'}, p.Acts pool m m' → R m m') (h : p.Moves pool m m') :
    R m m' := by
  induction h with
  | refl => exact hrefl m
  | tail _ hact ih => exact htrans _ _ _ ih (hacts hact)

theorem Flows.between {out : Except Halt (List Value) × Machine} {pool : List Value} {es : List Evaluation}
    (hacts : ∀ {pool m m'}, p.Acts pool m m' → R m m') (h : Flows p out pool m es)
    (hparts : ∀ e ∈ es, Between R e.machine e.trace e.final) :
    Between R m (es.flatMap trace) out.2 := by
  have hmoves {pool : List Value} {m m' : Machine} (h : p.Moves pool m m') : Between R m [] m' :=
    .none (Moves.relates hrefl htrans hacts h)
  induction h with
  | ends hm => exact hmoves hm
  | @halts _ m e _ hm _ _ hback =>
    have he := (hmoves hm).append htrans ((hparts e List.mem_cons_self).append htrans (hmoves hback))
    simpa using he
  | @goes _ m e _ rest hm _ _ _ ih =>
    have hrest := ih fun e' he' => hparts e' (List.mem_cons_of_mem e he')
    have hfirst : Between R m e.trace e.final := (hmoves hm).append htrans (hparts e List.mem_cons_self)
    exact hfirst.append htrans hrest
  | finds hm _ _ ih => exact (hmoves hm).append htrans (ih hparts)

/-- What every change respects relates all machines of a trace, in their order. -/
theorem trace_between (hacts : ∀ {e}, Visits p e → ∀ {pool m m'}, e.Acts pool m m' → R m m') :
    Between R p.machine p.trace p.final := by
  induction p using parts_induction with
  | h p ih =>
    have hparts : ∀ e ∈ p.parts, Between R e.machine e.trace e.final := by
      intro e he
      have hpart := mem_parts.mp he
      exact ih e hpart fun hvisits => hacts ((Visits.here.part hpart).trans hvisits)
    have hflow := Flows.between hrefl htrans (hacts .here) p.flows hparts
    rw [trace_eq]
    exact (Between.one (hrefl _)).append htrans (hflow.append htrans (.one (hrefl _)))

end

/-! ## Invariants -/

def yielded (out : Except Halt (List Value) × Machine) : List Value :=
  match out.1 with
  | .ok vs => vs
  | .error _ => []

/-- `J` speaks of a machine and the values at hand, `I` of an evaluation. Every change that
such an evaluation makes keeps `J`, and where `J` holds a part is again such an evaluation. -/
structure Invariant (I : Evaluation → Prop) (J : Machine → List Value → Prop) : Prop where
  acts : ∀ {p pool m m'}, I p → p.Acts pool m m' → J m pool → J m' pool
  found : ∀ {m pool pool'}, J m pool → (∀ v ∈ pool', v ∈ pool ∨ v.FoundIn m.heap) → J m pool'
  part : ∀ {p e}, I p → Part p e → J e.machine e.given → I e

namespace Invariant

variable {I : Evaluation → Prop} {J : Machine → List Value → Prop} (h : Invariant I J) {p e : Evaluation}
  {m m' : Machine} {pool live : List Value}

include h

theorem fewer (hj : J m live) (hp : pool ⊆ live) : J m pool := h.found hj fun _ hv => .inl (hp hv)

theorem moves (hp : I p) (hm : p.Moves pool m m') (hsub : pool ⊆ live) (hj : J m live) : J m' live := by
  induction hm with
  | refl => exact hj
  | tail _ hact ih => exact h.acts hp (hact.mono hsub) ih

/-- Along the course of an evaluation, with any further values that are kept for later. -/
theorem flows {out : Except Halt (List Value) × Machine} {es : List Evaluation} (hp : I p)
    (hflow : Flows p out pool m es) (hparts : ∀ e ∈ es, Part p e)
    (ih : ∀ e ∈ es, I e → ∀ live, e.given ⊆ live → J e.machine live → J e.final (yielded e.outcome ++ live))
    (hsub : pool ⊆ live) (hj : J m live) :
    (∀ e ∈ es, I e ∧ J e.machine e.given) ∧ J out.2 (yielded out ++ live) := by
  induction hflow generalizing live with
  | @ends pool m hm hv _ =>
    refine ⟨fun e he => absurd he List.not_mem_nil, h.found (h.moves hp hm hsub hj) fun v hmem => ?_⟩
    rcases List.mem_append.mp hmem with hmem | hmem
    · unfold yielded at hmem
      split at hmem
      · rename_i vs hvs
        exact (hv vs hvs v hmem).imp_left (@hsub v)
      · cases hmem
    · exact .inl hmem
  | @halts pool m e halt hm hg he hback hout =>
    have hstart := h.moves hp hm hsub hj
    have hlive : e.given ⊆ live := List.Subset.trans hg hsub
    have hgiven := h.fewer hstart hlive
    have hie := h.part hp (hparts e List.mem_cons_self) hgiven
    refine ⟨fun e' he' => List.mem_singleton.mp he' ▸ ⟨hie, hgiven⟩, ?_⟩
    have hend := h.fewer (ih e List.mem_cons_self hie live hlive hstart) (List.subset_append_right _ live)
    have hvalues : yielded out = [] := by simp only [yielded, hout]
    rw [hvalues]
    exact h.moves hp hback hsub hend
  | @goes pool m e vs rest hm hg he _ ihrest =>
    have hstart := h.moves hp hm hsub hj
    have hlive : e.given ⊆ live := List.Subset.trans hg hsub
    have hgiven := h.fewer hstart hlive
    have hie := h.part hp (hparts e List.mem_cons_self) hgiven
    have hend := ih e List.mem_cons_self hie live hlive hstart
    have hvalues : yielded e.outcome = vs := by simp only [yielded, he]
    rw [hvalues] at hend
    have hpool : vs ++ pool ⊆ vs ++ live := List.append_subset.mpr
      ⟨List.subset_append_left _ _, List.Subset.trans hsub (List.subset_append_right _ _)⟩
    obtain ⟨hothers, hout⟩ := ihrest (fun e' he' => hparts e' (List.mem_cons_of_mem e he'))
      (fun e' he' => ih e' (List.mem_cons_of_mem e he')) hpool hend
    refine ⟨fun e' he' => ?_, h.fewer hout ?_⟩
    · rcases List.mem_cons.mp he' with rfl | he'
      · exact ⟨hie, hgiven⟩
      · exact hothers e' he'
    · intro v hv
      rcases List.mem_append.mp hv with hv | hv
      · exact List.mem_append_left _ hv
      · exact List.mem_append_right _ (List.mem_append_right _ hv)
  | @finds pool m m₁ v rest hm hv _ ihrest =>
    have hlive := h.moves hp hm hsub hj
    have hmore : J m₁ (v :: live) := h.found hlive fun v' hv' => by
      rcases List.mem_cons.mp hv' with rfl | hv'
      · exact .inr hv
      · exact .inl hv'
    obtain ⟨hothers, hout⟩ := ihrest hparts ih (List.cons_subset_cons v hsub) hmore
    refine ⟨hothers, h.fewer hout fun v' hv' => ?_⟩
    rcases List.mem_append.mp hv' with hv' | hv'
    · exact List.mem_append_left _ hv'
    · exact List.mem_append_right _ (List.mem_cons_of_mem _ hv')

/-- What holds at the start holds at the end, with the values that come out. -/
theorem ends (hp : I p) (hsub : p.given ⊆ live) (hj : J p.machine live) : J p.final (yielded p.outcome ++ live) := by
  induction p using parts_induction generalizing live with
  | h p ih =>
    exact (h.flows hp p.flows (fun e he => mem_parts.mp he)
      (fun e he hie live hg hje => ih e (mem_parts.mp he) hie hg hje) hsub hj).2

/-- Parts start where the invariant holds. -/
theorem parts (hp : I p) (hj : J p.machine p.given) (hpart : Part p e) : I e ∧ J e.machine e.given :=
  (h.flows hp p.flows (fun _ he => mem_parts.mp he) (fun _ _ hie _ hg hje => h.ends hie hg hje)
    (List.Subset.refl _) hj).1 e (mem_parts.mpr hpart)

/-- Wherever an evaluation gets to, the invariant holds: where each further evaluation starts,
and where it ends, with the values that it yields. -/
theorem visits (hp : I p) (hj : J p.machine p.given) (hvisits : Visits p e) :
    I e ∧ J e.machine e.given ∧ J e.final (yielded e.outcome) := by
  have hstart : I e ∧ J e.machine e.given := by
    induction hvisits with
    | here => exact ⟨hp, hj⟩
    | part _ hpart ih => exact h.parts ih.1 ih.2 hpart
  have hend := h.ends hstart.1 (List.Subset.refl _) hstart.2
  exact ⟨hstart.1, hstart.2, h.fewer hend (List.subset_append_left _ _)⟩

end Invariant

end Evaluation

end Lox
