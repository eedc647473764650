import Cxx.Atm.Dispatcher
import Cxx.Core.Loop
import Mathlib.Data.List.Nodup
import Mathlib.Data.List.TakeWhile
import Mathlib.Logic.Function.Basic

/-!
# The objects of a dispatch chain

Model of include/atm/Dispatcher.hpp:9-92 object by object. A full expression
`wait().handle<T1>(f1)...` makes temporaries at addresses of any type, each with its
`chained_` flag and a pointer to the one before it; it may move the one made last, as
often as the compiler likes. At its end they are destroyed in reverse order, and one
that is not chained runs its wait loop. `queue` is the queue of the `Receiver`, to
which all point, with all that is going to be pushed.

* `Built`: of the objects made so far, just the one made last is not chained.
* `ask_goes`: asking the objects along `prev_` is `Dispatcher.dispatch`.
* `dispatch_chain`: the end of the full expression runs one wait loop, to the first
  message that has a handler or is a `CloseQueue`.
-/
namespace Cxx.Temporaries

open Atm (Dispatcher Dispatched)

/-- The members of a `TemplateDispatcher`: the type `Msg`, `f_` and `prev_`. -/
structure Link (A K F : Type) where
  msg : K
  f : F
  prev : A

/-- A `Dispatcher` (with no link) or a `TemplateDispatcher`. -/
structure Temporary (A K F : Type) where
  link : Option (Link A K F)
  chained : Bool

inductive Event (A F M : Type) where
  /-- the destructor of the object calls `waitAndDispatcher` -/
  | waits (object : A)
  | discarded (msg : M)
  | called (f : F) (msg : M)
  /-- `throw CloseQueue()` -/
  | threw (msg : M)
  deriving DecidableEq, Repr

def Event.isWait {A F M : Type} : Event A F M → Bool
  | .waits _ => true
  | _ => false

structure Expr (A K F M : Type) where
  objects : A → Option (Temporary A K F)
  /-- The objects to be destroyed, the one made last first. -/
  live : List A
  queue : List M
  log : List (Event A F M)
  /-- `CloseQueue` has been thrown. -/
  thrown : Bool

variable {A K F M : Type}

section
variable [DecidableEq A]

/-! ## The making of the objects -/

/-- mirrors include/atm/Dispatcher.hpp:61, 113 -/
def Expr.wait (a : A) (queue : List M) : Expr A K F M where
  objects := Function.update (fun _ => none) a (some ⟨none, false⟩)
  live := [a]
  queue
  log := []
  thrown := false

inductive Build (A K F : Type) where
  /-- The object made last is moved to `a`, and may be destroyed at once. -/
  | move (a : A) (gone : Bool)
  | handle (a : A) (msg : K) (f : F)

/-- mirrors include/atm/Dispatcher.hpp:13-17, 26-28, 60, 70-72 -/
def Expr.build (s : Expr A K F M) (b : Build A K F) : Option (Expr A K F M) :=
  match s.live with
  | [] => none
  | cur :: rest =>
    match s.objects cur with
    | none => none
    | some object =>
      match b with
      | .move a gone =>
        match s.objects a with
        | some _ => none
        | none =>
          let objects := Function.update s.objects a (some object)
          let left : Temporary A K F := { object with chained := true }
          if gone then
            -- the destructor of what is left of the object does not wait
            if left.chained then
              some { s with objects := Function.update objects cur none, live := a :: rest }
            else none
          else some { s with
            objects := Function.update objects cur (some left)
            live := a :: cur :: rest }
      | .handle a msg f =>
        match s.objects a with
        | some _ => none
        | none =>
          let objects := Function.update s.objects a (some ⟨some ⟨msg, f, cur⟩, false⟩)
          some { s with
            objects := Function.update objects cur (some { object with chained := true })
            live := a :: cur :: rest }

def builds : Expr A K F M → List (Build A K F) → Option (Expr A K F M)
  | s, [] => some s
  | s, b :: bs => (s.build b).bind fun s' => builds s' bs

/-- The message types and handlers, in the order in which they are added. -/
def registered (bs : List (Build A K F)) : List (K × F) :=
  bs.filterMap fun
    | .move _ _ => none
    | .handle _ msg f => some (msg, f)

/-! ## The end of the full expression -/

/-- Where it is: at the destruction of the next object, in the wait loop of the object
`self`, or at the call of `dispatcher(msg)` of the object `a` in it. -/
inductive Place (A M : Type) where
  | destroy
  | wait (self : A)
  | ask (self : A) (msg : M) (a : A)

inductive End where
  | finished
  /-- left by `CloseQueue` -/
  | threw
  /-- blocked in `waitAndPop` -/
  | waiting
  /-- a second `CloseQueue` while the first is on its way -/
  | terminated
  /-- a dangling pointer -/
  | fault
  deriving DecidableEq, Repr

/-- The object made last has been destroyed. -/
def Expr.drop (s : Expr A K F M) (a : A) : Expr A K F M :=
  { s with objects := Function.update s.objects a none, live := s.live.tail }

def Expr.add (s : Expr A K F M) (e : Event A F M) : Expr A K F M := { s with log := s.log ++ [e] }

variable [DecidableEq K]

/-- mirrors include/atm/Dispatcher.hpp:21-23, 39-53, 65-67, 80-91 -/
def endTurn (typeOf : M → K) (close : K) :
    Expr A K F M × Place A M → Turn (Expr A K F M × Place A M) (End × Expr A K F M)
  | (s, .destroy) =>
    match s.live with
    | [] => .leave (if s.thrown then .threw else .finished, s)
    | a :: _ =>
      match s.objects a with
      | none => .leave (.fault, s)
      | some object =>
        if object.chained then .again (s.drop a, .destroy)
        else .again (s.add (.waits a), .wait a)
  | (s, .wait self) =>
    match s.queue with
    | [] => .leave (.waiting, s)
    | msg :: queue => .again ({ s with queue }, .ask self msg self)
  | (s, .ask self msg a) =>
    match s.objects a with
    | none => .leave (.fault, s)
    | some ⟨none, _⟩ =>
      if typeOf msg = close then
        if s.thrown then .leave (.terminated, s)
        else .again ({ (s.add (.threw msg)).drop self with thrown := true }, .destroy)
      else .again (s.add (.discarded msg), .wait self)
    | some ⟨some link, _⟩ =>
      if typeOf msg = link.msg then .again ((s.add (.called link.f msg)).drop self, .destroy)
      else .again (s, .ask self msg link.prev)

end

/-! ## What it is to do -/

section
variable [DecidableEq K] (typeOf : M → K) (close : K) (handlers : List (K × F))

/-- The loop ends with this message. -/
def stops (msg : M) : Bool := handlers.any (fun h => typeOf msg = h.1) || typeOf msg = close

/-- The object `cur` waits. It discards messages up to the first that has a handler or
is a `CloseQueue`, which goes to the handler added last of those for its type. -/
def expected (cur : A) (queue : List M) : End × List M × List (Event A F M) :=
  let log := .waits cur ::
    (queue.takeWhile fun msg => !stops typeOf close handlers msg).map .discarded
  match queue.dropWhile fun msg => !stops typeOf close handlers msg with
  | [] => (.waiting, [], log)
  | msg :: later =>
    match handlers.reverse.find? fun h => typeOf msg = h.1 with
    | some h => (.finished, later, log ++ [.called h.2 msg])
    | none => (.threw, later, log ++ [.threw msg])

theorem expected_waits (cur : A) (queue : List M) :
    (expected typeOf close handlers cur queue).2.2.countP Event.isWait = 1 := by
  have hskipped : ∀ msgs : List M,
      (msgs.map (Event.discarded : M → Event A F M)).countP Event.isWait = 0 := by
    intro msgs
    rw [List.countP_map, List.countP_eq_zero]
    intro msg _
    exact Bool.false_ne_true
  unfold expected
  cases queue.dropWhile fun msg => !stops typeOf close handlers msg with
  | nil => simp [List.countP_cons, hskipped, Event.isWait]
  | cons msg later =>
    cases hfind : handlers.reverse.find? fun h => typeOf msg = h.1 <;>
      simp [List.countP_cons, List.countP_append, hskipped, Event.isWait, hfind]

end

/-! ## The objects made -/

/-- From an object with `link`, the `prev_` pointers lead through `within` to objects
with the handlers `hs`, and then to the `Dispatcher`. -/
def Asks (objects : A → Option (Temporary A K F)) (within : List A) :
    List (K × F) → Option (Link A K F) → Prop
  | [], link => link = none
  | h :: hs, link => ∃ prev ∈ within, link = some ⟨h.1, h.2, prev⟩ ∧
      ∃ below chained, objects prev = some ⟨below, chained⟩ ∧ Asks objects within hs below

/-- The object `cur` has been made last, with the handlers `hs`, the newest first. It is
the only one that is not chained. -/
structure Built (s : Expr A K F M) (hs : List (K × F)) (cur : A) (rest : List A) : Prop where
  live : s.live = cur :: rest
  nodup : (cur :: rest).Nodup
  current : ∃ link, s.objects cur = some ⟨link, false⟩ ∧ Asks s.objects rest hs link
  chained : ∀ a ∈ rest, ∃ link, s.objects a = some ⟨link, true⟩

section
variable {objects objects' : A → Option (Temporary A K F)} {within within' : List A}
  {hs : List (K × F)} {link : Option (Link A K F)} {s s' : Expr A K F M} {cur a : A}
  {rest : List A} {queue : List M}

theorem Asks.mono (h : Asks objects within hs link) (hw : ∀ a ∈ within, a ∈ within')
    (ho : ∀ a ∈ within, ∀ link c, objects a = some ⟨link, c⟩ →
      ∃ c', objects' a = some ⟨link, c'⟩) : Asks objects' within' hs link := by
  induction hs generalizing link with
  | nil => exact h
  | cons h' hs ih =>
    obtain ⟨prev, hprev, hlink, below, c, hb, hasks⟩ := h
    obtain ⟨c', hb'⟩ := ho prev hprev below c hb
    exact ⟨prev, hw prev hprev, hlink, below, c', hb', ih hasks⟩

variable [DecidableEq A]

theorem built_wait (a : A) (queue : List M) :
    Built (Expr.wait a queue : Expr A K F M) [] a [] := by
  have hobjects : (Expr.wait a queue : Expr A K F M).objects =
      Function.update (fun _ => none) a (some ⟨none, false⟩) := rfl
  refine ⟨rfl, List.nodup_singleton a, ⟨none, ?_, rfl⟩, nofun⟩
  rw [hobjects, Function.update_self]

/-- The objects after `a` has been made and `cur` been changed. -/
theorem Built.update (h : Built s hs cur rest) (ha : s.objects a = none)
    (x y : Option (Temporary A K F)) :
    a ∉ cur :: rest ∧ Function.update (Function.update s.objects a x) cur y a = x ∧
      Function.update (Function.update s.objects a x) cur y cur = y ∧
      ∀ b ∈ rest, Function.update (Function.update s.objects a x) cur y b = s.objects b := by
  have hout : a ∉ cur :: rest := by
    intro hmem
    rcases List.mem_cons.mp hmem with rfl | hmem
    · obtain ⟨link, hlink, -⟩ := h.current
      cases ha.symm.trans hlink
    · obtain ⟨link, hlink⟩ := h.chained a hmem
      cases ha.symm.trans hlink
  refine ⟨hout, ?_, Function.update_self _ _ _, fun b hb => ?_⟩
  · rw [Function.update_of_ne (List.ne_of_not_mem_cons hout), Function.update_self]
  · have hba : b ≠ a := fun he => hout (he ▸ List.mem_cons_of_mem cur hb)
    have hbc : b ≠ cur := fun he => (List.nodup_cons.mp h.nodup).1 (he ▸ hb)
    rw [Function.update_of_ne hbc, Function.update_of_ne hba]

/-- An object is made after `cur`, which is chained to it or moved into it. -/
theorem Built.push (h : Built s hs cur rest) (ha : s.objects a = none)
    (hcur : s.objects cur = some ⟨link, false⟩) {hs' : List (K × F)}
    {link' : Option (Link A K F)} {objects : A → Option (Temporary A K F)}
    (ho : objects = Function.update (Function.update s.objects a (some ⟨link', false⟩)) cur
      (some ⟨link, true⟩))
    (hasks : Asks objects (cur :: rest) hs link → Asks objects (cur :: rest) hs' link') :
    Built { s with objects, live := a :: cur :: rest } hs' a (cur :: rest) := by
  obtain ⟨hout, hnew, hold, hrest⟩ := h.update ha (some ⟨link', false⟩) (some ⟨link, true⟩)
  rw [← ho] at hnew hold hrest
  have hbelow : Asks objects (cur :: rest) hs link := by
    obtain ⟨l, hl, hasks⟩ := h.current
    cases hcur.symm.trans hl
    exact hasks.mono (fun b hb => List.mem_cons_of_mem cur hb)
      fun b hb l c hlc => ⟨c, (hrest b hb).trans hlc⟩
  refine ⟨rfl, List.nodup_cons.mpr ⟨hout, h.nodup⟩, ⟨link', hnew, hasks hbelow⟩, fun b hb => ?_⟩
  rcases List.mem_cons.mp hb with rfl | hb
  · exact ⟨link, hold⟩
  · obtain ⟨l, hl⟩ := h.chained b hb
    exact ⟨l, (hrest b hb).trans hl⟩

theorem Built.build (h : Built s hs cur rest) {b : Build A K F} (hb : s.build b = some s') :
    (∃ cur' rest', Built s' ((registered [b]).reverse ++ hs) cur' rest') ∧ s'.queue = s.queue ∧
      s'.log = s.log ∧ s'.thrown = s.thrown := by
  obtain ⟨link, hcur, hasks⟩ := h.current
  unfold Expr.build at hb
  simp only [h.live, hcur] at hb
  cases b with
  | handle a msg f =>
    cases ha : s.objects a with
    | some object => simp only [ha] at hb; cases hb
    | none =>
      simp only [ha, Option.some.injEq] at hb
      subst hb
      refine ⟨⟨a, cur :: rest, h.push ha hcur rfl fun hbelow => ?_⟩, rfl, rfl, rfl⟩
      obtain ⟨-, -, hold, -⟩ := h.update ha (some ⟨some ⟨msg, f, cur⟩, false⟩) (some ⟨link, true⟩)
      exact ⟨cur, List.mem_cons_self, rfl, link, true, hold, hbelow⟩
  | move a gone =>
    cases ha : s.objects a with
    | some object => simp only [ha] at hb; cases hb
    | none =>
      simp only [ha] at hb
      cases gone with
      | false =>
        cases hb
        exact ⟨⟨a, cur :: rest, h.push ha hcur rfl id⟩, rfl, rfl, rfl⟩
      | true =>
        cases hb
        obtain ⟨hout, hnew, -, hrest⟩ := h.update ha (some ⟨link, false⟩) none
        refine ⟨⟨a, rest, rfl, ?_, ⟨link, hnew, ?_⟩, fun b hb => ?_⟩, rfl, rfl, rfl⟩
        · exact List.nodup_cons.mpr
            ⟨fun hmem => hout (List.mem_cons_of_mem cur hmem), (List.nodup_cons.mp h.nodup).2⟩
        · exact hasks.mono (fun b hb => hb) fun b hb l c hlc => ⟨c, (hrest b hb).trans hlc⟩
        · obtain ⟨l, hl⟩ := h.chained b hb
          exact ⟨l, (hrest b hb).trans hl⟩

theorem Built.builds (h : Built s hs cur rest) {bs : List (Build A K F)}
    (hb : Temporaries.builds s bs = some s') :
    (∃ cur' rest', Built s' ((registered bs).reverse ++ hs) cur' rest') ∧ s'.queue = s.queue ∧
      s'.log = s.log ∧ s'.thrown = s.thrown := by
  induction bs generalizing s hs cur rest with
  | nil => cases hb; exact ⟨⟨cur, rest, h⟩, rfl, rfl, rfl⟩
  | cons b bs ih =>
    obtain ⟨s₁, hb₁, hbs⟩ := Option.bind_eq_some_iff.mp hb
    obtain ⟨⟨cur₁, rest₁, h₁⟩, hq, hl, ht⟩ := h.build hb₁
    obtain ⟨⟨cur₂, rest₂, h₂⟩, hq', hl', ht'⟩ := ih h₁ hbs
    refine ⟨⟨cur₂, rest₂, ?_⟩, hq'.trans hq, hl'.trans hl, ht'.trans ht⟩
    have hregistered : registered (b :: bs) = registered [b] ++ registered bs :=
      List.filterMap_append (l := [b])
    rw [hregistered, List.reverse_append, List.append_assoc]
    exact h₂

end

/-! ## The wait loop -/

/-- The chain of some handlers, the newest first. -/
def chainOf [DecidableEq K] (typeOf : M → K) : List (K × F) → Dispatcher M (F × M)
  | [] => .wait
  | h :: hs => .handle (chainOf typeOf hs) fun msg =>
      if typeOf msg = h.1 then some (h.2, msg) else none

section
variable [DecidableEq A] [DecidableEq K] (typeOf : M → K) (close : K) {hs : List (K × F)}
  {link : Option (Link A K F)} {s : Expr A K F M} {self a : A} {within : List A} {chained : Bool}

theorem dispatch_chainOf (hs : List (K × F)) (msg : M) :
    (chainOf typeOf hs).dispatch (fun m => typeOf m = close) msg =
      match hs.find? fun h => typeOf msg = h.1 with
      | some h => .handled (h.2, msg)
      | none => if typeOf msg = close then .closed else .discarded := by
  have hhandlers : (chainOf typeOf hs).handlers.findSome? (· msg) =
      (hs.find? fun h => typeOf msg = h.1).map fun h => (h.2, msg) := by
    induction hs with
    | nil => rfl
    | cons h hs ih =>
      by_cases hm : typeOf msg = h.1
      · simp [chainOf, Dispatcher.handlers, hm]
      · simp [chainOf, Dispatcher.handlers, hm, ih]
  rw [Atm.dispatch_eq, hhandlers]
  cases hs.find? fun h => typeOf msg = h.1 <;> simp

theorem dispatch_stops (handlers : List (K × F)) (msg : M) :
    (chainOf typeOf handlers.reverse).dispatch (fun m => typeOf m = close) msg =
      if stops typeOf close handlers msg then
        match handlers.reverse.find? fun h => typeOf msg = h.1 with
        | some h => .handled (h.2, msg)
        | none => .closed
      else .discarded := by
  have hnone : handlers.reverse.find? (fun h => typeOf msg = h.1) = none ↔
      handlers.any (fun h => typeOf msg = h.1) = false := by
    rw [List.find?_eq_none, List.any_eq_false]
    simp only [List.mem_reverse]
  rw [dispatch_chainOf]
  unfold stops
  cases hfind : handlers.reverse.find? fun h => typeOf msg = h.1 with
  | none => simp [hnone.mp hfind]
  | some h =>
    have hany : handlers.any (fun h => typeOf msg = h.1) = true := by
      rw [← Bool.not_eq_false, ← hnone, hfind]
      exact Option.some_ne_none h
    simp only [hany, Bool.true_or, if_true]

/-- What the loop does with what the chain makes of a message. -/
def answer (s : Expr A K F M) (self : A) (msg : M) :
    Dispatched (F × M) → Turn (Expr A K F M × Place A M) (End × Expr A K F M)
  | .handled fm => .again ((s.add (.called fm.1 fm.2)).drop self, .destroy)
  | .closed =>
    if s.thrown then .leave (.terminated, s)
    else .again ({ (s.add (.threw msg)).drop self with thrown := true }, .destroy)
  | .discarded => .again (s.add (.discarded msg), .wait self)

/-- The objects ask one another along `prev_` as the chain does. -/
theorem ask_goes (self : A) (msg : M) (h : Asks s.objects within hs link)
    (ha : s.objects a = some ⟨link, chained⟩) :
    ∃ a', Loop.Goes (endTurn typeOf close) (s, .ask self msg a) (s, .ask self msg a') ∧
      endTurn typeOf close (s, .ask self msg a') =
        answer s self msg ((chainOf typeOf hs).dispatch (fun m => typeOf m = close) msg) := by
  induction hs generalizing a link chained with
  | nil =>
    have hlink : link = none := h
    subst hlink
    refine ⟨a, .refl _, ?_⟩
    by_cases hc : typeOf msg = close
    · simp [endTurn, ha, chainOf, Dispatcher.dispatch, answer, hc]
    · simp [endTurn, ha, chainOf, Dispatcher.dispatch, answer, hc]
  | cons h' hs ih =>
    obtain ⟨prev, -, rfl, below, c, hb, hasks⟩ := h
    by_cases hm : typeOf msg = h'.1
    · refine ⟨a, .refl _, ?_⟩
      simp [endTurn, ha, chainOf, Dispatcher.dispatch, answer, hm]
    · obtain ⟨a', hgo, hturn⟩ := ih hasks hb
      refine ⟨a', .again ?_ hgo, ?_⟩
      · simp [endTurn, ha, hm]
      · rw [hturn]
        simp [chainOf, Dispatcher.dispatch, hm]

/-- Some messages have been discarded. -/
def Expr.skip (s : Expr A K F M) (skipped later : List M) : Expr A K F M :=
  { s with queue := later, log := s.log ++ skipped.map .discarded }

/-- The loop discards what the chain discards. -/
theorem skip_goes (h : Asks s.objects within hs link)
    (hself : s.objects self = some ⟨link, chained⟩) (later : List M) {skipped : List M}
    (hskip : ∀ msg ∈ skipped,
      (chainOf typeOf hs).dispatch (fun m => typeOf m = close) msg = .discarded) :
    Loop.Goes (endTurn typeOf close) ({ s with queue := skipped ++ later }, .wait self)
      (s.skip skipped later, .wait self) := by
  induction skipped generalizing s with
  | nil =>
    unfold Expr.skip
    rw [List.map_nil, List.append_nil]
    exact .refl _
  | cons msg skipped ih =>
    obtain ⟨a', hgo, hturn⟩ :=
      ask_goes typeOf close (s := { s with queue := skipped ++ later }) self msg h hself
    rw [hskip msg List.mem_cons_self] at hturn
    have hlog : s.skip (msg :: skipped) later = (s.add (.discarded msg)).skip skipped later := by
      unfold Expr.skip
      rw [List.map_cons, List.append_cons]
      rfl
    have hrest := ih (s := s.add (.discarded msg)) h hself
      fun m hm => hskip m (List.mem_cons_of_mem _ hm)
    rw [hlog]
    exact .again rfl (hgo.trans (.again hturn hrest))

/-- Objects that are chained do nothing when they are destroyed. -/
theorem destroy_returns (hchained : ∀ a ∈ s.live, ∃ link, s.objects a = some ⟨link, true⟩)
    (hn : s.live.Nodup) : ∃ s', Loop.Returns (endTurn typeOf close) (s, .destroy)
      (if s.thrown then .threw else .finished, s') ∧ s'.queue = s.queue ∧ s'.log = s.log ∧
        s'.live = [] := by
  induction hlive : s.live generalizing s with
  | nil => exact ⟨s, .leave (by simp only [endTurn, hlive]), rfl, rfl, hlive⟩
  | cons a live ih =>
    rw [hlive] at hchained hn
    obtain ⟨link, ha⟩ := hchained a List.mem_cons_self
    have hdrop : (s.drop a).live = live := congrArg List.tail hlive
    have hothers : ∀ b ∈ live, ∃ link, (s.drop a).objects b = some ⟨link, true⟩ := by
      intro b hb
      have hne : b ≠ a := fun he => (List.nodup_cons.mp hn).1 (he ▸ hb)
      obtain ⟨l, hl⟩ := hchained b (List.mem_cons_of_mem a hb)
      exact ⟨l, (Function.update_of_ne hne _ _).trans hl⟩
    obtain ⟨s', hret, hs'⟩ := ih (s := s.drop a) (by rwa [hdrop])
      (by rw [hdrop]; exact (List.nodup_cons.mp hn).2) hdrop
    refine ⟨s', .again ?_ hret, hs'⟩
    simp only [endTurn, hlive, ha, if_true]

/-- The object made last has gone, and the others go. -/
theorem Built.rest_returns {cur : A} {rest : List A} (s' : Expr A K F M)
    (hb : Built s hs cur rest) (hlive : s'.live = s.live.tail)
    (hobjects : s'.objects = Function.update s.objects cur none) :
    ∃ s'', Loop.Returns (endTurn typeOf close) (s', .destroy)
      (if s'.thrown then .threw else .finished, s'') ∧ s''.queue = s'.queue ∧ s''.log = s'.log ∧
        s''.live = [] := by
  rw [hb.live, List.tail_cons] at hlive
  apply destroy_returns typeOf close
  · intro a ha
    rw [hlive] at ha
    have hne : a ≠ cur := fun he => (List.nodup_cons.mp hb.nodup).1 (he ▸ ha)
    obtain ⟨l, hl⟩ := hb.chained a ha
    exact ⟨l, by rw [hobjects, Function.update_of_ne hne, hl]⟩
  · rw [hlive]
    exact (List.nodup_cons.mp hb.nodup).2

/-- The message that ends the loop, and the destruction of the others. -/
theorem Built.stop_returns {cur : A} {rest : List A} {handlers : List (K × F)} {msg : M}
    {later : List M} (hb : Built s handlers.reverse cur rest) (ht : s.thrown = false)
    (hq : s.queue = msg :: later) (hstop : stops typeOf close handlers msg = true) :
    ∃ e s', Loop.Returns (endTurn typeOf close) (s, .wait cur) (e, s') ∧ s'.live = [] ∧
      (e, s'.queue, s'.log) = match handlers.reverse.find? fun h => typeOf msg = h.1 with
        | some h => (.finished, later, s.log ++ [.called h.2 msg])
        | none => (.threw, later, s.log ++ [.threw msg]) := by
  obtain ⟨link, hcur, hasks⟩ := hb.current
  have hpop : endTurn typeOf close (s, .wait cur) =
      .again ({ s with queue := later }, .ask cur msg cur) := by
    simp only [endTurn, hq]
  obtain ⟨a', hask, hturn⟩ :=
    ask_goes typeOf close (s := { s with queue := later }) cur msg hasks hcur
  rw [dispatch_stops, hstop, if_pos rfl] at hturn
  have hgo := (Loop.Goes.one hpop).trans hask
  cases hfind : handlers.reverse.find? fun h => typeOf msg = h.1 with
  | some h =>
    rw [hfind] at hturn
    obtain ⟨s', hret, hqueue, hlog, hlive⟩ := hb.rest_returns typeOf close
      ((Expr.add { s with queue := later } (.called h.2 msg)).drop cur) rfl rfl
    have hend : ((Expr.add { s with queue := later } (.called h.2 msg)).drop cur).thrown = false :=
      ht
    rw [hend, if_neg Bool.false_ne_true] at hret
    refine ⟨.finished, s', (hgo.trans (.one hturn)).returns_iff.mpr hret, hlive, ?_⟩
    rw [hqueue, hlog]
    rfl
  | none =>
    rw [hfind] at hturn
    have hthrow : endTurn typeOf close ({ s with queue := later }, .ask cur msg a') =
        .again ({ (Expr.add { s with queue := later } (.threw msg)).drop cur with thrown := true },
          .destroy) := by
      rw [hturn]
      refine if_neg fun h => ?_
      cases ht.symm.trans h
    obtain ⟨s', hret, hqueue, hlog, hlive⟩ := hb.rest_returns typeOf close
      { (Expr.add { s with queue := later } (.threw msg)).drop cur with thrown := true } rfl rfl
    rw [if_pos rfl] at hret
    refine ⟨.threw, s', (hgo.trans (.one hthrow)).returns_iff.mpr hret, hlive, ?_⟩
    rw [hqueue, hlog]
    rfl

/-- The loop of the object made last, and the destruction of the others. -/
theorem Built.wait_returns {cur : A} {rest : List A} {handlers : List (K × F)}
    (hb : Built s handlers.reverse cur rest) (ht : s.thrown = false)
    (hlog : s.log = [.waits cur]) : ∃ e s',
      Loop.Returns (endTurn typeOf close) (s, .wait cur) (e, s') ∧
      (e, s'.queue, s'.log) = expected typeOf close handlers cur s.queue ∧
      (e ≠ .waiting → s'.live = []) := by
  obtain ⟨link, hcur, hasks⟩ := hb.current
  have hskip : ∀ msg ∈ s.queue.takeWhile fun msg => !stops typeOf close handlers msg,
      (chainOf typeOf handlers.reverse).dispatch (fun m => typeOf m = close) msg =
        .discarded := by
    intro msg hmsg
    have hstop := List.mem_takeWhile_imp hmsg
    rw [Bool.not_eq_true'] at hstop
    rw [dispatch_stops, hstop]
    rfl
  have hgo := skip_goes typeOf close hasks hcur
    (s.queue.dropWhile fun msg => !stops typeOf close handlers msg) hskip
  rw [List.takeWhile_append_dropWhile] at hgo
  have hhead := List.head?_dropWhile_not (fun msg => !stops typeOf close handlers msg) s.queue
  unfold expected
  generalize s.queue.takeWhile (fun msg => !stops typeOf close handlers msg) = skipped at hgo ⊢
  have hskipped : ∀ later, (s.skip skipped later).log =
      .waits cur :: skipped.map .discarded := by
    intro later
    change s.log ++ _ = _
    rw [hlog]
    rfl
  cases hrest : s.queue.dropWhile fun msg => !stops typeOf close handlers msg with
  | nil =>
    rw [hrest] at hgo
    refine ⟨.waiting, _, hgo.returns rfl, ?_, fun hne => absurd rfl hne⟩
    rw [hskipped]
    rfl
  | cons msg later =>
    rw [hrest] at hgo hhead
    have hstop : stops typeOf close handlers msg = true := by
      have hhead : (!stops typeOf close handlers msg) = false := hhead
      rwa [Bool.not_eq_false'] at hhead
    have hb' : Built (s.skip skipped (msg :: later)) handlers.reverse cur rest :=
      ⟨hb.live, hb.nodup, hb.current, hb.chained⟩
    obtain ⟨e, s', hret, hlive, hend⟩ := hb'.stop_returns typeOf close ht rfl hstop
    refine ⟨e, s', hgo.returns_iff.mpr hret, ?_, fun _ => hlive⟩
    rw [hend, hskipped]

end

/-- **A dispatch chain runs one wait loop.** When the full expression ends, whatever its
handlers and its moves, only the object made last is not chained. Its loop does to the
queue what is `expected`, and the destructors of the others do nothing. -/
theorem dispatch_chain [DecidableEq A] [DecidableEq K] (typeOf : M → K) (close : K) (a : A)
    (queue : List M) (bs : List (Build A K F)) (s : Expr A K F M)
    (h : builds (.wait a queue) bs = some s) :
    ∃ cur rest e s', s.live = cur :: rest ∧
      (∀ b ∈ rest, ∃ link, s.objects b = some ⟨link, true⟩) ∧
      Loop.Returns (endTurn typeOf close) (s, .destroy) (e, s') ∧
      (e, s'.queue, s'.log) = expected typeOf close (registered bs) cur queue ∧
      s'.log.countP Event.isWait = 1 ∧ (e ≠ .waiting → s'.live = []) := by
  obtain ⟨⟨cur, rest, hb⟩, hqueue, hlog, hthrown⟩ := (built_wait a queue).builds h
  obtain ⟨link, hcur, hasks⟩ := hb.current
  rw [List.append_nil] at hb
  have hstart : endTurn typeOf close (s, .destroy) = .again (s.add (.waits cur), .wait cur) := by
    simp only [endTurn, hb.live, hcur, Bool.false_eq_true, if_false]
  have hb' : Built (s.add (.waits cur)) (registered bs).reverse cur rest :=
    ⟨hb.live, hb.nodup, hb.current, hb.chained⟩
  obtain ⟨e, s', hret, hend, hlive⟩ := hb'.wait_returns typeOf close hthrown
    (congrArg (· ++ [Event.waits cur]) hlog)
  have hq : (s.add (.waits cur)).queue = queue := hqueue
  rw [hq] at hend
  refine ⟨cur, rest, e, s', hb.live, hb.chained, .again hstart hret, hend, ?_, hlive⟩
  rw [← expected_waits typeOf close (registered bs) cur queue, ← hend]

/-- Two handlers for the type 1 and one for the type 2, with moves in between. -/
def chainSteps : List (Build Nat Nat Nat) :=
  [.move 1 true, .handle 2 1 10, .move 3 false, .handle 4 1 20, .handle 5 2 30]

theorem dispatch_chain_of_three : ∃ s s' : Expr Nat Nat Nat (Nat × Nat),
    builds (.wait 0 [(3, 5), (1, 6), (2, 7)]) chainSteps = some s ∧
      Loop.Returns (endTurn Prod.fst 0) (s, .destroy) (.finished, s') ∧ s'.queue = [(2, 7)] ∧
      s'.log = [.waits 5, .discarded (3, 5), .called 20 (1, 6)] := by
  have hbuild : ∃ s : Expr Nat Nat Nat (Nat × Nat),
      builds (.wait 0 [(3, 5), (1, 6), (2, 7)]) chainSteps = some s ∧ s.live = [5, 4, 3, 2, 1] :=
    ⟨_, rfl, rfl⟩
  obtain ⟨s, hs, hlive⟩ := hbuild
  obtain ⟨cur, rest, e, s', hcur, -, hret, hend, -, -⟩ :=
    dispatch_chain Prod.fst 0 0 [(3, 5), (1, 6), (2, 7)] chainSteps s hs
  obtain ⟨rfl, -⟩ := List.cons.inj (hlive.symm.trans hcur)
  obtain ⟨rfl, hrest⟩ := Prod.mk.inj hend
  obtain ⟨hq, hl⟩ := Prod.mk.inj hrest
  exact ⟨s, s', hs, hret, hq, hl⟩

end Cxx.Temporaries
