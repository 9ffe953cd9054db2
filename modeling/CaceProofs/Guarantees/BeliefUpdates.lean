import Mathlib.Data.List.Nodup
import Mathlib.Data.Option.Basic
import CaceProofs.Library.Path
import CaceProofs.Guarantees.JobEffects

/-!
# The beliefs a robot misses

A robot that joins, and every active robot after a change of scope, is sent the variables
whose scope encloses the local one and of which no proposal of the robot is up to date. The
code compares printed scopes, and looks at the first proposal of the robot only.
-/
namespace CaceProofs.Guarantees
open Source Library

section Scope

/-- The scope of a variable as a path. -/
def scopePath (cv : ConsensusVariable) : List Name :=
  pathOf '/' cv.name

/-- `getScope` prints the path, or a single slash for a variable without one. -/
theorem getScope_eq (cv : ConsensusVariable) :
    cv.getScope = if scopePath cv = [] then ['/'] else terminated '/' (scopePath cv) := by
  unfold ConsensusVariable.getScope
  by_cases separated : '/' ∈ cv.name
  · have nonempty : scopePath cv ≠ [] := by
      rw [scopePath, ne_eq, pathOf_eq_nil_iff]
      exact not_not.mpr separated
    rw [if_pos separated, if_neg nonempty]
    exact rdropWhile_path '/' cv.name
  · have empty : scopePath cv = [] := (pathOf_eq_nil_iff '/' cv.name).mpr separated
    rw [if_neg separated, if_pos empty]

/-- The local scope is printed the same way. -/
theorem scopeString_eq (c : Cace) :
    c.scopeString = if c.localScope = [] then ['/'] else terminated '/' c.localScope := by
  unfold Cace.scopeString
  rcases List.eq_nil_or_concat c.localScope with none | ⟨front, last, some⟩
  · simp [none]
  · have ends : (c.localScope.flatMap fun s => s ++ ['/'])
        = (terminated '/' front ++ last) ++ ['/'] := by
      simp [some, terminated]
    have nonempty : c.localScope ≠ [] := by simp [some]
    rw [if_neg nonempty]
    simp only [ends, List.getLast?_concat, if_true]
    rw [← ends]
    rfl

/-- The variable has a scope of its own, or the local scope prints as a slash. -/
def ScopeFound (cv : ConsensusVariable) (localScope : List Name) : Prop :=
  scopePath cv ≠ [] ∨ localScope.head?.getD [] = []

/-- When the code finds the scope of a variable in front of the local one. -/
theorem getScope_prefix_iff {cv : ConsensusVariable} {c : Cace} (named : cv.name.head? ≠ some '/')
    (clean : ∀ s ∈ c.localScope, '/' ∉ s) :
    cv.getScope.isPrefixOf c.scopeString = true ↔
      scopePath cv <+: c.localScope ∧ ScopeFound cv c.localScope := by
  obtain ⟨base, -, whole, -, cleanPath⟩ := splitOn_spec '/' cv.name
  rw [List.isPrefixOf_iff_prefix, getScope_eq, scopeString_eq]
  unfold ScopeFound
  by_cases plain : scopePath cv = []
  · rw [if_pos plain]
    cases scope : c.localScope with
    | nil => simp [plain]
    | cons outer rest =>
      have outerClean : '/' ∉ outer := clean outer (by simp [scope])
      cases outer with
      | nil => simp [plain, List.cons_prefix_cons]
      | cons a outer =>
        have other : '/' ≠ a := fun same => outerClean (same ▸ List.mem_cons_self)
        simp [plain, List.cons_prefix_cons, other]
  · rw [if_neg plain]
    simp only [plain, ne_eq, not_false_eq_true, true_or, and_true]
    cases scope : c.localScope with
    | nil =>
      obtain ⟨first, path, split⟩ := List.exists_cons_of_ne_nil plain
      rw [scopePath] at split
      rw [split] at whole
      have headless : ¬first ++ '/' :: terminated '/' path <+: ['/'] := by
        cases first with
        | nil => exact absurd (by simp [whole]) named
        | cons a first =>
          have other : a ≠ '/' := fun same => named (by simp [whole, same])
          simp [List.cons_prefix_cons, other]
      rw [if_pos rfl, scopePath, split, terminated_cons]
      simpa using headless
    | cons outer rest =>
      rw [if_neg (List.cons_ne_nil _ _)]
      exact terminated_prefix_iff cleanPath (scope ▸ clean)

end Scope

section Sending

/-- The variable and the robots that a notification job is for. -/
def briefing : Job → Option (VariablePtr × List Int)
  | .believeNotification j => some (j.variablePtr, j.expectedRobotIDs)
  | .command _ | .commandAcknowledge _ | .believeAcknowledge _ | .shortAck _ | .write _
  | .writeAck _ | .request _ => none

/-- Exactly these notification jobs are appended. -/
def Appends (c d : Cace) (sent : List (VariablePtr × List Int)) : Prop :=
  ∃ jobs, d.jobs = c.jobs ++ jobs ∧ jobs.map briefing = sent.map some

theorem appends_unique {c d : Cace} {sent sent' : List (VariablePtr × List Int)}
    (first : Appends c d sent) (second : Appends c d sent') : sent = sent' := by
  obtain ⟨jobs, appended, briefs⟩ := first
  obtain ⟨jobs', appended', briefs'⟩ := second
  obtain rfl : jobs = jobs' := List.append_cancel_left (appended.symm.trans appended')
  exact (Option.some_injective _).list_map (briefs.symm.trans briefs')

theorem appends_trans {c d e : Cace} {sent sent' : List (VariablePtr × List Int)}
    (first : Appends c d sent) (second : Appends d e sent') : Appends c e (sent ++ sent') := by
  obtain ⟨jobs, appended, briefs⟩ := first
  obtain ⟨jobs', appended', briefs'⟩ := second
  exact ⟨jobs ++ jobs', by rw [appended', appended, List.append_assoc],
    by rw [List.map_append, List.map_append, briefs, briefs']⟩

/-- What `sendBelieveUpdates` tests of a variable. -/
def sendsUpdate (scope : Name) (id : Int) (e : Name × ConsensusVariable) : Bool :=
  (e.2.getScope.isPrefixOf scope && e.2.hasValue) &&
    decide (Cace.lastKnownUpdateTime e.2 id < e.2.lamportAge ∧ .fireAndForget < e.2.strategy)

/-- The notifications for some variables. -/
def briefings (id : Int) (es : List (Name × ConsensusVariable)) : List (VariablePtr × List Int) :=
  es.map fun e => (.stored e.1, [id])

variable {r : Readings} {id : Int} {scope : Name} {lamportTime : Nat}

theorem sendBelieveUpdate_appends (c : Cace) (e : Name × ConsensusVariable) :
    Appends c (c.sendBelieveUpdate r id scope lamportTime e)
        (if sendsUpdate scope id e then briefings id [e] else []) ∧
      (c.sendBelieveUpdate r id scope lamportTime e).store = c.store ∧
      (c.sendBelieveUpdate r id scope lamportTime e).activeRobots = c.activeRobots := by
  have constructed : OnlySends c
      (BelieveNotificationJob.construct r c (.stored e.1) [id] lamportTime).1 ∧
      briefing (.believeNotification
        (BelieveNotificationJob.construct r c (.stored e.1) [id] lamportTime).2)
          = some (.stored e.1, [id]) := by
    unfold BelieveNotificationJob.construct
    dsimp only
    split
    · exact ⟨send_onlySends c _ _, rfl⟩
    · exact ⟨OnlySends.refl c, rfl⟩
  have store := congrArg Cace.store constructed.1.frame
  have active := congrArg Cace.activeRobots constructed.1.frame
  unfold Cace.sendBelieveUpdate sendsUpdate
  by_cases inScope : (e.2.getScope.isPrefixOf scope && e.2.hasValue) = true
  · by_cases outdated : Cace.lastKnownUpdateTime e.2 id < e.2.lamportAge ∧
        .fireAndForget < e.2.strategy
    · simp only [inScope, outdated, if_true, and_self, decide_true, Bool.and_self]
      refine ⟨⟨[.believeNotification
        (BelieveNotificationJob.construct r c (.stored e.1) [id] lamportTime).2], ?_, ?_⟩, ?_, ?_⟩
      · change _ ++ [_] = _
        rw [constructed.1.jobs]
      · simpa [briefings] using constructed.2
      · exact store
      · exact active
    · simp only [inScope, outdated, if_true, if_false, decide_false, Bool.and_false,
        Bool.false_eq_true]
      exact ⟨⟨[], by simp, rfl⟩, trivial, trivial⟩
  · rw [if_neg inScope, if_neg (by simp [inScope])]
    exact ⟨⟨[], by simp, rfl⟩, rfl, rfl⟩

theorem sendBelieveUpdates_appends (c : Cace) (es : List (Name × ConsensusVariable)) :
    Appends c (es.foldl (Cace.sendBelieveUpdate r id scope lamportTime) c)
        (briefings id (es.filter (sendsUpdate scope id))) ∧
      (es.foldl (Cace.sendBelieveUpdate r id scope lamportTime) c).store = c.store ∧
      (es.foldl (Cace.sendBelieveUpdate r id scope lamportTime) c).activeRobots
        = c.activeRobots := by
  induction es generalizing c with
  | nil => exact ⟨⟨[], by simp, rfl⟩, rfl, rfl⟩
  | cons e es ih =>
    obtain ⟨first, store, active⟩ := @sendBelieveUpdate_appends r id scope lamportTime c e
    obtain ⟨rest, store', active'⟩ := ih (c.sendBelieveUpdate r id scope lamportTime e)
    refine ⟨?_, store'.trans store, active'.trans active⟩
    have both := appends_trans first rest
    have joined : (if sendsUpdate scope id e then briefings id [e] else [])
        ++ briefings id (es.filter (sendsUpdate scope id))
          = briefings id ((e :: es).filter (sendsUpdate scope id)) := by
      cases sends : sendsUpdate scope id e <;> simp [briefings, sends]
    rwa [joined] at both

/-- The updates to several robots. -/
theorem sendAll_appends (c : Cace) (robots : List Int) :
    Appends c (robots.foldl (fun c id => c.sendBelieveUpdates r id scope c.lamportTime.time) c)
      (robots.flatMap fun id => briefings id (c.store.filter (sendsUpdate scope id))) := by
  induction robots generalizing c with
  | nil => exact ⟨[], by simp, rfl⟩
  | cons id robots ih =>
    obtain ⟨first, store, -⟩ :=
      @sendBelieveUpdates_appends r id scope c.lamportTime.time c c.store
    have rest := ih (c.sendBelieveUpdates r id scope c.lamportTime.time)
    have same : (c.sendBelieveUpdates r id scope c.lamportTime.time).store = c.store := store
    rw [same] at rest
    exact appends_trans first rest

/-- The updates to a robot that joins. -/
theorem joining_appends (c : Cace) (other : id ≠ c.ownID) (joins : id ∉ c.activeRobots) :
    Appends c (c.agentEngangement r id true)
      (briefings id (c.store.filter (sendsUpdate c.scopeString id))) := by
  let joined : Cace := { c with activeRobots := c.activeRobots ++ [id] }
  have engaged : c.agentEngangement r id true
      = joined.sendBelieveUpdates r id joined.scopeString joined.lamportTime.time := by
    unfold Cace.agentEngangement
    rw [if_neg other, if_neg (by simpa using joins)]
    rfl
  rw [engaged]
  exact (@sendBelieveUpdates_appends r id joined.scopeString joined.lamportTime.time
    joined joined.store).1

end Sending

section Missing

/-- The robot misses what the variable says: it has a value, is distributed with
acknowledges, is in scope, and no proposal of the robot is as new. -/
def Misses (id : Int) (localScope : List Name) (cv : ConsensusVariable) : Prop :=
  cv.hasValue = true ∧ .fireAndForget < cv.strategy ∧ scopePath cv <+: localScope ∧
    ∀ v ∈ cv.proposals, v.robotID = id → v.lamportAge < cv.lamportAge

instance (id : Int) (localScope : List Name) (cv : ConsensusVariable) :
    Decidable (Misses id localScope cv) := by
  delta Misses
  infer_instance

/-- What a robot should be notified of. -/
def missing (id : Int) (localScope : List Name) (c : Cace) : List (Name × ConsensusVariable) :=
  c.store.filter fun e => decide (Misses id localScope e.2)

/-- Where the code decides right: of a variable that may be sent, in scope, a robot without
an up to date proposal gets one that is not of age 0 and whose scope is found, and the first
proposal of any other robot is up to date, if the scope is found. -/
def DecidedRight (id : Int) (localScope : List Name) (cv : ConsensusVariable) : Prop :=
  cv.hasValue = true → .fireAndForget < cv.strategy → scopePath cv <+: localScope →
    ((∀ v ∈ cv.proposals, v.robotID = id → v.lamportAge < cv.lamportAge) →
      ScopeFound cv localScope ∧ 0 < cv.lamportAge) ∧
    ((∃ v ∈ cv.proposals, v.robotID = id ∧ cv.lamportAge ≤ v.lamportAge) →
      ScopeFound cv localScope → cv.lamportAge ≤ Cace.lastKnownUpdateTime cv id)

variable {id : Int} {c : Cace}

/-- The age the code knows of, for a robot without an up to date proposal. -/
theorem lastKnown_lt_iff {cv : ConsensusVariable}
    (outdated : ∀ v ∈ cv.proposals, v.robotID = id → v.lamportAge < cv.lamportAge) :
    Cace.lastKnownUpdateTime cv id < cv.lamportAge ↔ 0 < cv.lamportAge := by
  unfold Cace.lastKnownUpdateTime
  cases found : cv.proposals.find? fun v => v.robotID == id with
  | none => rfl
  | some v =>
    have sender : v.robotID = id := by simpa using List.find?_some found
    have older := outdated v (List.mem_of_find?_eq_some found) sender
    simp only [Option.map_some, Option.getD_some]
    omega

theorem sendsUpdate_right_iff {e : Name × ConsensusVariable} (named : e.2.name.head? ≠ some '/')
    (clean : ∀ s ∈ c.localScope, '/' ∉ s) :
    sendsUpdate c.scopeString id e = decide (Misses id c.localScope e.2) ↔
      DecidedRight id c.localScope e.2 := by
  have inScope := getScope_prefix_iff named clean
  have sends : sendsUpdate c.scopeString id e = true ↔
      ((scopePath e.2 <+: c.localScope ∧ ScopeFound e.2 c.localScope) ∧ e.2.hasValue = true) ∧
        Cace.lastKnownUpdateTime e.2 id < e.2.lamportAge ∧ .fireAndForget < e.2.strategy := by
    simp only [sendsUpdate, Bool.and_eq_true, inScope, decide_eq_true_eq]
  rw [Bool.eq_iff_iff, sends, decide_eq_true_eq]
  unfold DecidedRight Misses
  by_cases valued : e.2.hasValue = true
  · by_cases level : .fireAndForget < e.2.strategy
    · by_cases enclosed : scopePath e.2 <+: c.localScope
      · simp only [valued, level, enclosed, true_and, and_true, true_implies]
        by_cases outdated : ∀ v ∈ e.2.proposals, v.robotID = id → v.lamportAge < e.2.lamportAge
        · have upToDate : ¬∃ v ∈ e.2.proposals, v.robotID = id ∧ e.2.lamportAge ≤ v.lamportAge := by
            rintro ⟨v, member, sender, newer⟩
            have older := outdated v member sender
            omega
          simp only [lastKnown_lt_iff outdated, upToDate, false_implies, and_true]
          exact ⟨fun same _ => same.mpr outdated, fun right => ⟨fun _ => outdated, right⟩⟩
        · have upToDate : ∃ v ∈ e.2.proposals, v.robotID = id ∧ e.2.lamportAge ≤ v.lamportAge := by
            push Not at outdated
            exact outdated
          simp only [outdated, upToDate, iff_false, not_and, not_lt, false_implies, true_implies,
            true_and]
      · simp [enclosed]
    · simp [level]
  · simp [valued]

/-- The notifications are the right ones if the code decides right of every variable; the
keys of the store are distinct, as those of a map are. -/
theorem briefings_right_iff {robots : List Int} (keys : (c.store.map Prod.fst).Nodup)
    (names : ∀ e ∈ c.store, e.2.name.head? ≠ some '/') (clean : ∀ s ∈ c.localScope, '/' ∉ s) :
    (robots.flatMap fun id => briefings id (c.store.filter (sendsUpdate c.scopeString id)))
        = (robots.flatMap fun id => briefings id (missing id c.localScope c)) ↔
      ∀ id ∈ robots, ∀ e ∈ c.store, DecidedRight id c.localScope e.2 := by
  constructor
  · intro same id robot e stored
    rw [← sendsUpdate_right_iff (names e stored) clean, Bool.eq_iff_iff]
    have onList : ∀ p : Int → Name × ConsensusVariable → Bool,
        p id e = true ↔ (VariablePtr.stored e.1, [id]) ∈
          robots.flatMap fun id => briefings id (c.store.filter (p id)) := by
      intro p
      rw [List.mem_flatMap]
      constructor
      · intro sent
        refine ⟨id, robot, List.mem_map.mpr ⟨e, ?_, rfl⟩⟩
        exact List.mem_filter.mpr ⟨stored, sent⟩
      · rintro ⟨other, -, briefed⟩
        obtain ⟨e', member, brief⟩ := List.mem_map.mp briefed
        obtain ⟨stored', sent⟩ := List.mem_filter.mp member
        obtain ⟨key, receivers⟩ := Prod.mk.inj brief
        obtain rfl : other = id := by simpa using receivers
        obtain rfl : e' = e :=
          List.inj_on_of_nodup_map keys stored' stored (VariablePtr.stored.inj key)
        exact sent
    have sent := onList (sendsUpdate c.scopeString)
    rw [same] at sent
    exact sent.trans (onList fun id e => decide (Misses id c.localScope e.2)).symm
  · intro right
    refine List.flatMap_congr fun id robot => congrArg (briefings id) ?_
    refine List.filter_congr fun e stored => ?_
    exact (sendsUpdate_right_iff (names e stored) clean).mpr (right id robot e stored)

/-- A robot that joins is notified of exactly what it misses if and only if the code decides
right of every variable, and so is every active robot after a change of the scope. -/
theorem belief_updates_exact_iff {r : Readings} {localScope : List Name}
    (keys : (c.store.map Prod.fst).Nodup) (names : ∀ e ∈ c.store, e.2.name.head? ≠ some '/')
    (clean : ∀ s ∈ c.localScope, '/' ∉ s) (cleanNew : ∀ s ∈ localScope, '/' ∉ s) :
    (∀ id, id ≠ c.ownID → id ∉ c.activeRobots →
      (Appends c (c.agentEngangement r id true) (briefings id (missing id c.localScope c)) ↔
        ∀ e ∈ c.store, DecidedRight id c.localScope e.2)) ∧
    (Appends c (c.changeScopeAndRestoreConsistency r localScope)
        (c.activeRobots.flatMap fun id => briefings id (missing id localScope c)) ↔
      ∀ id ∈ c.activeRobots, ∀ e ∈ c.store, DecidedRight id localScope e.2) := by
  constructor
  · intro id other joins
    have sent := @joining_appends r id c other joins
    have right := @briefings_right_iff c [id] keys names clean
    simp only [List.flatMap_cons, List.flatMap_nil, List.append_nil, List.forall_mem_singleton]
      at right
    rw [← right]
    exact ⟨fun missed => appends_unique sent missed, fun same => same ▸ sent⟩
  · let moved : Cace := { c with localScope := localScope }
    have sent := @sendAll_appends r moved.scopeString moved moved.activeRobots
    have right := @briefings_right_iff moved c.activeRobots keys names cleanNew
    rw [← right]
    exact ⟨fun missed => appends_unique sent missed, fun same => same ▸ sent⟩

/-- An agent in the scope `a` with one variable, decided at time 3. -/
def scopedAgent (name : Name) : Cace :=
  { Cace.construct 1 false 5 with
    localScope := [['a']]
    store := [(name,
      ⟨{ Believe.construct name .threeWayHandShake longMax 1 0 3 typeCInt with
          val := [1], hasValue := true }, []⟩)] }

/-- Robot 2 joins, and is told of the variable `a/x`. -/
theorem belief_updates_joining :
    Appends (scopedAgent ['a', '/', 'x'])
      ((scopedAgent ['a', '/', 'x']).agentEngangement .zero 2 true)
      (briefings 2 (missing 2 [['a']] (scopedAgent ['a', '/', 'x']))) :=
  ((@belief_updates_exact_iff (scopedAgent ['a', '/', 'x']) .zero [['a']] (by decide) (by decide)
    (by decide) (by decide)).1 2 (by decide) (by decide)).mpr
      (by unfold DecidedRight ScopeFound; decide)

/-- Robot 2 joins, and is not told of the variable `x`, which belongs to every scope. -/
theorem belief_updates_unscoped :
    missing 2 [['a']] (scopedAgent ['x']) = (scopedAgent ['x']).store ∧
      ¬Appends (scopedAgent ['x']) ((scopedAgent ['x']).agentEngangement .zero 2 true)
        (briefings 2 (missing 2 [['a']] (scopedAgent ['x']))) := by
  refine ⟨by decide, ?_⟩
  rintro ⟨jobs, appended, briefs⟩
  have none : ((scopedAgent ['x']).agentEngangement .zero 2 true).jobs = [] := by decide
  obtain rfl : jobs = [] := by
    rw [none] at appended
    exact (List.append_eq_nil_iff.mp appended.symm).2
  cases briefs

end Missing

end CaceProofs.Guarantees
