/-
  Lox.Proofs.Forgetting — what a session remembers. Only runs of texts without static faults
  leave anything behind, and a reset forgets them too: every answer of a session is the one
  that a fresh session gives after the valid runs since the last reset, those that failed
  included. So the other requests, and all that was asked before a reset, can be left out, and
  the remaining answers stay as they are (`only_valid_runs_last`).
-/

import Mathlib.Data.List.DropRight
import Lox.Proofs.Session.Endings
import Lox.Proofs.Session.Requests

namespace Lox

namespace Request

/-- The request runs nothing: it shows tokens or a tree, or its text has a static fault. -/
def idle : Request → Bool
  | .run _ _ source => !(analyze source).reports.isEmpty
  | .tokens _ => true
  | .tree _ => true
  | .reset => false

def isReset : Request → Bool
  | .reset => true
  | _ => false

def lasting (requests : List Request) : List Request :=
  (requests.rtakeWhile (!·.isReset)).filter (!·.idle)

/-- Only requests that run nothing are left out, and requests before a reset, with all that
comes before it. -/
def Spares (keep : Nat → Bool) (requests : List Request) : Prop :=
  ∀ i request, requests[i]? = some request → keep i = false →
    request.idle = true ∨ ∃ j, i < j ∧ requests[j]? = some .reset ∧ ∀ k < j, keep k = false

end Request

def selected {α : Type} (keep : Nat → Bool) : List α → List α
  | [] => []
  | x :: xs => if keep 0 then x :: selected (keep <| · + 1) xs else selected (keep <| · + 1) xs

namespace Session

open Request

variable {session : Session} {requests : List Request} {request : Request} {keep : Nat → Bool}

/-! ## Requests that run nothing -/

/-- A run is idle exactly if its text is rejected, whatever the session. -/
theorem idle_run_iff (session : Session) (fuel : Nat) (clock : Nat → Float) (source : Bytes) :
    (Request.run fuel clock source).idle = true ↔ ∃ n, (session.run fuel clock source).1.result = .staticFaults n := by
  simp only [idle, Bool.not_eq_true', List.isEmpty_eq_false_iff]
  constructor
  · intro h
    rw [run_of_faults session fuel clock h]
    exact ⟨_, rfl⟩
  · rintro ⟨n, hn⟩ h
    exact run_not_rejected h hn

/-- An idle request leaves the session alone. -/
theorem answer_of_idle (session : Session) (h : request.idle = true) : (session.answer request).2 = session := by
  cases request with
  | run fuel clock source =>
    simp only [idle, Bool.not_eq_true', List.isEmpty_eq_false_iff] at h
    exact run_of_fault session fuel clock h
  | tokens source => rfl
  | tree source => rfl
  | reset => cases h

/-! ## The session that requests lead to -/

theorem after_append (session : Session) (before later : List Request) :
    session.after (before ++ later) = (session.after before).after later := by
  induction before generalizing session with
  | nil => rfl
  | cons request before ih => exact ih (session.answer request).2

theorem lasting_reset (requests : List Request) : lasting (requests ++ [.reset]) = [] := by
  unfold lasting
  rw [List.rtakeWhile_concat_neg _ _ _ (by decide)]
  rfl

theorem lasting_concat (requests : List Request) (h : request.isReset = false) :
    lasting (requests ++ [request]) = lasting requests ++ if request.idle then [] else [request] := by
  unfold lasting
  rw [List.rtakeWhile_concat_pos _ _ _ (by simp [h]), List.filter_append]
  cases hidle : request.idle <;> simp [hidle]

/-- A fresh session comes to the same point through the valid runs since the last reset. -/
theorem after_lasting (requests : List Request) : fresh.after requests = fresh.after (lasting requests) := by
  induction requests using List.reverseRecOn with
  | nil => rfl
  | append_singleton requests request ih =>
    rw [after_append]
    cases hreset : request.isReset with
    | true =>
      cases request with
      | reset => rw [lasting_reset]; rfl
      | run | tokens | tree => cases hreset
    | false =>
      rw [lasting_concat requests hreset, ih]
      cases hidle : request.idle with
      | true =>
        rw [if_pos rfl, List.append_nil]
        exact answer_of_idle _ hidle
      | false =>
        rw [if_neg Bool.false_ne_true, after_append]

/-- Each answer depends on the session that the requests before it lead to. -/
theorem getElem?_answers (session : Session) {i : Nat} (h : requests[i]? = some request) :
    (session.answers requests)[i]? = some ((session.after (requests.take i)).answer request).1 := by
  induction requests generalizing session i with
  | nil => cases h
  | cons first rest ih =>
    cases i with
    | zero =>
      cases h
      rfl
    | succ i => exact ih (session.answer first).2 h

/-! ## Leaving requests out -/

theorem Spares.tail {first : Request} (h : Spares keep (first :: requests)) : Spares (keep <| · + 1) requests := by
  intro i request hi hk
  rcases h (i + 1) request hi hk with hidle | ⟨j, hij, hj, hall⟩
  · exact .inl hidle
  · obtain ⟨j, rfl⟩ : ∃ k, j = k + 1 := ⟨j - 1, by omega⟩
    exact .inr ⟨j, by omega, hj, fun k hk => hall (k + 1) (by omega)⟩

/-- The two sessions are the same, or are both forgotten before they answer anything. -/
def Agree (keep : Nat → Bool) (requests : List Request) (session session' : Session) : Prop :=
  session = session' ∨ ∃ j : Nat, requests[j]? = some .reset ∧ ∀ k < j, keep k = false

variable {session' : Session}

/-- A kept request is answered alike, and the sessions are the same after it. -/
theorem Agree.answer (h : Agree keep (request :: requests) session session') (hkeep : keep 0 = true) :
    session.answer request = session'.answer request := by
  rcases h with rfl | ⟨j, hj, hall⟩
  · rfl
  · cases j with
    | zero =>
      cases hj
      rfl
    | succ j => cases hkeep.symm.trans (hall 0 (Nat.succ_pos j))

/-- A request that is left out either changes nothing, or there is a reset ahead. -/
theorem Agree.leave (h : Agree keep (request :: requests) session session') (hs : Spares keep (request :: requests))
    (hkeep : keep 0 = false) : Agree (keep <| · + 1) requests (session.answer request).2 session' := by
  have ahead {j : Nat} (hpos : 0 < j) (hj : (request :: requests)[j]? = some .reset) (hall : ∀ k < j, keep k = false) :
      Agree (keep <| · + 1) requests (session.answer request).2 session' := by
    obtain ⟨j, rfl⟩ : ∃ k, j = k + 1 := ⟨j - 1, by omega⟩
    exact .inr ⟨j, hj, fun k hk => hall (k + 1) (by omega)⟩
  rcases hs 0 request rfl hkeep with hidle | ⟨j, hpos, hj, hall⟩
  · rcases h with rfl | ⟨j, hj, hall⟩
    · exact .inl (answer_of_idle session hidle)
    · refine ahead (Nat.pos_of_ne_zero ?_) hj hall
      rintro rfl
      cases hj
      cases hidle
  · exact ahead hpos hj hall

/-- The answers that are kept are the ones that would have been given anyway. -/
theorem Agree.answers (hs : Spares keep requests) (h : Agree keep requests session session') :
    session'.answers (selected keep requests) = selected keep (session.answers requests) := by
  induction requests generalizing keep session session' with
  | nil => rfl
  | cons request requests ih =>
    rw [selected, Session.answers, selected]
    cases hkeep : keep 0 with
    | true =>
      have hanswer := h.answer hkeep
      rw [if_pos rfl, if_pos rfl, Session.answers, hanswer, ih (Spares.tail hs) (.inl rfl)]
    | false =>
      rw [if_neg Bool.false_ne_true, if_neg Bool.false_ne_true]
      exact ih (Spares.tail hs) (h.leave hs hkeep)

end Session

open Request in
/-- Each request is answered as by a fresh session after the valid runs since the last reset,
with the same bounds and the same readings of the clock. What runs nothing is told apart by
its result. Of the requests, those that run nothing and all those before a reset may be left
out: the others are answered as before. -/
theorem only_valid_runs_last (requests : List Request) :
    (∀ (i : Nat) (request : Request), requests[i]? = some request →
      (Session.fresh.answers requests)[i]? =
        some ((Session.fresh.after (lasting (requests.take i))).answer request).1) ∧
    (∀ (session : Session) (fuel : Nat) (clock : Nat → Float) (source : Bytes),
      (Request.run fuel clock source).idle = true ↔ ∃ n, (session.run fuel clock source).1.result = .staticFaults n) ∧
    ∀ keep, Spares keep requests →
      Session.fresh.answers (selected keep requests) = selected keep (Session.fresh.answers requests) := by
  refine ⟨?_, Session.idle_run_iff, fun keep hs => Session.Agree.answers hs (.inl rfl)⟩
  intro i request hi
  rw [← Session.after_lasting]
  exact Session.getElem?_answers .fresh hi

/-- A run that is forgotten, one that fails halfway, and three requests that run nothing. -/
def mixedRequests : List Request :=
  [.run 9 (fun _ => 0) (utf8 "var a = \"old\";"), .reset,
    .run 9 (fun _ => 0) (utf8 "var a = \"new\"; print b; var c = a;"),
    .tokens (utf8 "@"), .tree (utf8 "print 1;"), .run 9 (fun _ => 0) (utf8 "a = ;"),
    .run 9 (fun _ => 0) (utf8 "print a; print c;")]

/-- The last request is answered from the run that failed, and so it is if only the reset and
that run come before it. -/
theorem only_valid_runs_last_mixed :
    let failing := Request.run 9 (fun _ => 0) (utf8 "var a = \"new\"; print b; var c = a;")
    let last := Request.run 9 (fun _ => 0) (utf8 "print a; print c;")
    let step := ((Session.fresh.after [failing]).run 9 (fun _ => 0) (utf8 "print a; print c;")).1
    (Session.fresh.answers mixedRequests)[6]? = some (.ran step) ∧
      step.printed = [utf8 "new"] ∧ step.result = .failed ⟨1, .undefinedVariable (utf8 "c")⟩ ∧
      Session.fresh.answers [.reset, failing, last] =
        selected (fun i => i == 1 || i == 2 || i == 6) (Session.fresh.answers mixedRequests) := by
  intro failing last step
  have hvalid : failing.idle = false := by decide +kernel
  have hinvalid : (Request.run 9 (fun _ => 0) (utf8 "a = ;")).idle = true := by decide +kernel
  have hshown : (Request.tokens (utf8 "@")).idle = true ∧ (Request.tree (utf8 "print 1;")).idle = true := ⟨rfl, rfl⟩
  obtain ⟨hanswers, -, hleave⟩ := only_valid_runs_last mixedRequests
  refine ⟨?_, by decide +kernel, by decide +kernel, hleave (fun i => i == 1 || i == 2 || i == 6) ?_⟩
  · have hlasting : Request.lasting (mixedRequests.take 6) = [failing] := by
      simp only [mixedRequests, Request.lasting, List.take, List.rtakeWhile]
      simp [List.takeWhile, Request.isReset, hvalid, hinvalid, hshown, failing]
    have h := hanswers 6 last rfl
    rw [hlasting] at h
    exact h
  · intro i request hi hkeep
    rcases i with _ | _ | _ | _ | _ | _ | _ | i
    · exact .inr ⟨1, Nat.zero_lt_one, rfl, fun k hk => by rw [Nat.lt_one_iff.mp hk]; rfl⟩
    · cases hkeep
    · cases hkeep
    · cases hi
      exact .inl rfl
    · cases hi
      exact .inl rfl
    · cases hi
      exact .inl hinvalid
    · cases hkeep
    · cases hi

end Lox
