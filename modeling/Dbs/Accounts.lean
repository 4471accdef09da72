/-
  File:      Dbs/Accounts.lean
  Subject:   THE MASTER ACCOUNT (accounts/services/account_management_service.py and the repositories
             below it): operations that read, check what they read, and write later.

  Roles stand in one table, whether a user may sign in in another. Every statement and every atomic
  block is one step of the database; between the steps of one call run the steps of the others. The
  index on the role lets one row be master at most.

  * `updateRole`, `createAccount`, `handOver`, `setActive` -- the atomic blocks, `none` where the
    database refuses them and nothing is changed;
  * `advance`, `step` -- one call, and any number of them at once;
  * `Standing` -- a master's user is active; `Timely` -- the condition on the block a step commits:
    what was read of its account still holds; `step_carries`;
  * `one_working_master` -- in runs of timely steps; `master_demoted` -- a role set on an account that
    became the master after it was read.
-/
import Dbs.Lib.Rows
import Dbs.Lib.Runs

namespace Dbs.Accounts

/-! ## 1. Tables -/

inductive Role
  | master
  | admin
  | operator
  | viewer
deriving DecidableEq, Repr

/-- `Role.ASSIGNABLE`. -/
abbrev Assignable := { role : Role // role ≠ .master }

/-- A requested role: `none` is a text that is not in `Role.ASSIGNABLE`. -/
abbrev Requested := Option Assignable

structure User where
  id : Nat
  username : String
  active : Bool
deriving DecidableEq, Repr

structure Account where
  user : Nat
  role : Role
deriving DecidableEq, Repr

structure Db where
  users : List User
  accounts : List Account
  nextId : Nat
deriving DecidableEq, Repr

def masters (db : Db) : List Account := db.accounts.filter fun a => a.role == .master

/-- An account with its user, as `select_related("user")` reads it. -/
structure Found where
  user : Nat
  role : Role
  active : Bool
deriving DecidableEq, Repr

def joined (db : Db) (a : Account) : Option Found :=
  (db.users.find? fun u => u.id == a.user).map fun u => ⟨a.user, a.role, u.active⟩

def find (db : Db) (id : Nat) : Option Found :=
  (db.accounts.find? fun a => a.user == id).bind (joined db)

def master (db : Db) : Option Found := (masters db).head?.bind (joined db)

/-- `role_of`: an inactive user has none, one without an account is a viewer. -/
def roleOf (db : Db) (user : Nat) : Option Role :=
  (db.users.find? fun u => u.id == user && u.active).map fun u =>
    ((db.accounts.find? fun a => a.user == u.id).map Account.role).getD .viewer

/-- `require(user, ACCOUNTS_MANAGE)`: the command line acts as no user. -/
def require (db : Db) : Option Nat → Bool
  | none => true
  | some user => roleOf db user == some .master

def findByUsername (db : Db) (username : String) : Bool :=
  db.users.any fun u => u.username.toLower == username.toLower

/-! ## 2. The atomic blocks -/

/-- The index `dbs_manager_account_one_master`. -/
def admitted (db : Db) : Option Db := if (masters db).length ≤ 1 then some db else none

/-- `UPDATE … SET role` on an account's row; it has to find it. -/
def updateRole (db : Db) (user : Nat) (role : Role) : Option Db :=
  if db.accounts.any fun a => a.user == user then
    admitted { db with
      accounts := Rows.update (fun a => a.user == user) (fun a => { a with role }) db.accounts }
  else none

/-- A user with its account. The user is active; a name is taken once. -/
def createAccount (db : Db) (username : String) (role : Role) : Option Db :=
  if db.users.any fun u => u.username == username then none
  else
    admitted {
      users := db.users ++ [⟨db.nextId, username, true⟩]
      accounts := db.accounts ++ [⟨db.nextId, role⟩]
      nextId := db.nextId + 1 }

/-- The repository's `hand_over`. -/
def handOver (db : Db) (current successor : Nat) : Option Db :=
  (updateRole db current .admin).bind fun db => updateRole db successor .master

/-- `activate` and `deactivate`. -/
def setActive (db : Db) (user : Nat) (active : Bool) : Option Db :=
  if db.users.any fun u => u.id == user then
    some { db with
      users := Rows.update (fun u => u.id == user) (fun u => { u with active }) db.users }
  else none

/-- `AccountRepository.of`: the user's account, made a viewer's if there is none. -/
def accountOf (db : Db) (user : Nat) : Option Db :=
  if db.accounts.any fun a => a.user == user then some db
  else if db.users.any fun u => u.id == user then
    some { db with accounts := db.accounts ++ [⟨user, .viewer⟩] }
  else none

/-! ## 3. Calls at the same time -/

/-- What a caller asks for. -/
inductive Operation
  | create (username : String) (role : Requested)
  | setRole (id : Nat) (role : Requested)
  | setActive (id : Nat) (active : Bool)
  | handOver (id : Nat)
  | makeMaster (id : Nat)

/-- A call under way, with what it has read; `user` is none for the command line. -/
inductive Flight
  /-- the capability is checked next -/
  | called (user : Option Nat) (op : Operation)
  /-- the method's first read is next -/
  | allowed (user : Option Nat) (op : Operation)
  /-- `create` knows whether it makes the first account -/
  | counted (username : String) (role : Requested) (first : Bool)
  | creating (username : String) (role : Role)
  | settingRole (account : Found) (role : Assignable)
  | settingActive (account : Found) (active : Bool)
  /-- `hand_over` has its own account -/
  | handing (user : Nat) (current : Found) (id : Nat)
  /-- its password and its code are confirmed next -/
  | confirming (current successor : Found)
  | handingOver (current successor : Found)
  /-- `make_master` reads the present master next -/
  | finding (successor : Found)
  | crowning (successor : Found)

/-- `_other`: not the master and not the caller's own account. -/
def other (db : Db) (user : Option Nat) (id : Nat) : Option Found :=
  (find db id).bind fun account =>
    if account.role = .master ∨ user = some account.user then none else some account

/-- `_hand_over` up to its block. -/
def handingOver (current successor : Found) : Option Flight :=
  if successor.active then some (.handingOver current successor) else none

/-- A call's next read or block: the tables after it and the call, `none` where it has ended. A
    refused block is rolled back. `passes` answers the checks that read nothing here: the password
    rules, the caller's password and code. -/
def advance (db : Db) (passes : Bool) : Flight → Db × Option Flight
  | .called user op => (db, if require db user then some (.allowed user op) else none)
  | .allowed _ (.create username role) =>
    (db, some (.counted username role db.users.isEmpty))
  | .allowed user (.setRole id role) =>
    (db, match other db user id, role with
      | some account, some role => if account.role = role.1 then none
          else some (.settingRole account role)
      | _, _ => none)
  | .allowed user (.setActive id active) =>
    (db, match other db user id with
      | some account => if account.active = active then none else some (.settingActive account active)
      | none => none)
  | .allowed user (.handOver id) =>
    match user with
    | none => (db, none)
    | some user =>
      match accountOf db user with
      | none => (db, none)
      | some db => (db, (find db user).map fun current => .handing user current id)
  | .allowed _ (.makeMaster id) => (db, (find db id).map .finding)
  | .counted username role first =>
    (db, if findByUsername db username ∨ passes = false then none
      else if first then some (.creating username .master)
      else role.map fun role => .creating username role.1)
  | .creating username role => ((createAccount db username role).getD db, none)
  | .settingRole account role => ((updateRole db account.user role.1).getD db, none)
  | .settingActive account active => ((setActive db account.user active).getD db, none)
  | .handing user current id =>
    (db, (other db (some user) id).map fun successor => .confirming current successor)
  | .confirming current successor => (db, if passes then handingOver current successor else none)
  | .handingOver current successor =>
    ((handOver db current.user successor.user).getD db, none)
  | .finding successor =>
    (db, match master db with
      | none => if successor.active then some (.crowning successor) else none
      | some current =>
        if current.user = successor.user then none else handingOver current successor)
  | .crowning successor => ((updateRole db successor.user .master).getD db, none)

/-- The tables and the calls under way, by the thread that runs them. -/
structure World where
  db : Db
  flights : Nat → Option Flight

/-- A call begins, or goes on. -/
inductive Action
  | call (thread : Nat) (user : Option Nat) (op : Operation)
  | advance (thread : Nat) (passes : Bool)
  /-- an exception from elsewhere, or the end of the process -/
  | drop (thread : Nat)

/-- One statement of one call. -/
def step (w : World) : Action → Option World
  | .call thread user op =>
    if (w.flights thread).isNone then
      some { w with flights := Function.update w.flights thread (some (.called user op)) }
    else none
  | .advance thread passes =>
    (w.flights thread).map fun flight =>
      let (db, flight) := advance w.db passes flight
      { db, flights := Function.update w.flights thread flight }
  | .drop thread => some { w with flights := Function.update w.flights thread none }

/-! ## 4. The master -/

def Active (db : Db) (user : Nat) : Prop := ∃ u ∈ db.users, u.id = user ∧ u.active = true

/-- **Exactly one account has the role, and its user is active.** -/
def OneWorking (db : Db) : Prop := ∃ a, masters db = [a] ∧ Active db a.user

/-- Tables as their keys and the index keep them, in which a master's user is active. -/
structure Standing (db : Db) : Prop where
  userIds : (db.users.map User.id).Nodup
  accountIds : (db.accounts.map Account.user).Nodup
  fresh : ∀ u ∈ db.users, u.id < db.nextId
  linked : ∀ a ∈ db.accounts, ∃ u ∈ db.users, u.id = a.user
  one : (masters db).length ≤ 1
  working : ∀ a ∈ masters db, Active db a.user

theorem mem_masters {db : Db} {a : Account} : a ∈ masters db ↔ a ∈ db.accounts ∧ a.role = .master := by
  rw [masters, List.mem_filter, beq_iff_eq]

theorem Standing.oneWorking {db : Db} (h : Standing db) (hm : masters db ≠ []) : OneWorking db := by
  obtain ⟨a, ha⟩ := List.exists_mem_of_ne_nil _ hm
  have hlen : (masters db).length = 1 :=
    Nat.le_antisymm h.one (List.length_pos_of_mem ha)
  obtain ⟨b, hb⟩ := List.length_eq_one_iff.mp hlen
  exact ⟨b, hb, h.working b (hb ▸ List.mem_singleton_self b)⟩

/-- `db'` stands, and has a master if `db` had one. -/
def Carries (db db' : Db) : Prop := Standing db' ∧ (masters db ≠ [] → masters db' ≠ [])

theorem Carries.refl {db : Db} (h : Standing db) : Carries db db := ⟨h, id⟩

theorem admitted_some {db db' : Db} (h : admitted db = some db') :
    db' = db ∧ (masters db).length ≤ 1 := by
  rw [admitted] at h
  obtain ⟨hle, h⟩ := Option.ite_none_right_eq_some.mp h
  exact ⟨(Option.some.inj h).symm, hle⟩

variable {db db' : Db}

/-! ## 5. What the blocks keep -/

variable {role : Role}

theorem createAccount_carries (h : Standing db) {username : String}
    (hc : createAccount db username role = some db') : Carries db db' := by
  rw [createAccount] at hc
  obtain ⟨-, hc⟩ := Option.ite_none_left_eq_some.mp hc
  obtain ⟨rfl, hle⟩ := admitted_some hc
  set db' : Db := ⟨db.users ++ [⟨db.nextId, username, true⟩], db.accounts ++ [⟨db.nextId, role⟩],
    db.nextId + 1⟩ with hdb
  have hmasters : masters db' =
      masters db ++ [(⟨db.nextId, role⟩ : Account)].filter fun a => a.role == .master :=
    List.filter_append ..
  have hgone : ∀ a ∈ db.accounts, a.user < db.nextId := by
    intro a ha
    obtain ⟨u, hu, he⟩ := h.linked a ha
    exact he ▸ h.fresh u hu
  have hactive : ∀ user, Active db user → Active db' user := by
    intro user hu
    obtain ⟨u, hu, he⟩ := hu
    exact ⟨u, List.mem_append_left _ hu, he⟩
  refine ⟨⟨?_, ?_, ?_, ?_, hle, ?_⟩, ?_⟩
  · show ((db.users ++ [_]).map User.id).Nodup
    rw [List.map_append, List.map_singleton, List.nodup_append]
    refine ⟨h.userIds, List.nodup_singleton _, fun id hid id' hid' => ?_⟩
    obtain ⟨u, hu, rfl⟩ := List.mem_map.mp hid
    rw [List.mem_singleton.mp hid']
    exact Nat.ne_of_lt (h.fresh u hu)
  · show ((db.accounts ++ [_]).map Account.user).Nodup
    rw [List.map_append, List.map_singleton, List.nodup_append]
    refine ⟨h.accountIds, List.nodup_singleton _, fun id hid id' hid' => ?_⟩
    obtain ⟨a, ha, rfl⟩ := List.mem_map.mp hid
    rw [List.mem_singleton.mp hid']
    exact Nat.ne_of_lt (hgone a ha)
  · intro u hu
    rcases List.mem_append.mp hu with hu | hu
    · exact Nat.lt_succ_of_lt (h.fresh u hu)
    · rw [List.mem_singleton.mp hu]
      exact Nat.lt_succ_self _
  · intro a ha
    rcases List.mem_append.mp ha with ha | ha
    · obtain ⟨u, hu, he⟩ := h.linked a ha
      exact ⟨u, List.mem_append_left _ hu, he⟩
    · rw [List.mem_singleton.mp ha]
      exact ⟨_, List.mem_append_right _ (List.mem_singleton_self _), rfl⟩
  · intro a ha
    rw [hmasters] at ha
    rcases List.mem_append.mp ha with ha | ha
    · exact hactive _ (h.working a ha)
    · rw [List.mem_singleton.mp (List.mem_filter.mp ha).1]
      exact ⟨_, List.mem_append_right _ (List.mem_singleton_self _), rfl, rfl⟩
  · rw [hmasters]
    exact fun hm => List.append_ne_nil_of_left_ne_nil hm _

variable {user : Nat}

/-- What a role set on an account leaves as it was. -/
theorem updateRole_some (hu : updateRole db user role = some db') :
    db'.users = db.users ∧ db'.nextId = db.nextId ∧
      db'.accounts = Rows.update (fun a => a.user == user) (fun a => { a with role }) db.accounts ∧
      (masters db').length ≤ 1 ∧ ∃ a ∈ db.accounts, a.user = user := by
  rw [updateRole] at hu
  obtain ⟨hany, hu⟩ := Option.ite_none_right_eq_some.mp hu
  obtain ⟨rfl, hle⟩ := admitted_some hu
  obtain ⟨a, ha, he⟩ := List.any_eq_true.mp hany
  exact ⟨rfl, rfl, rfl, hle, a, ha, beq_iff_eq.mp he⟩

theorem updateRole_standing (h : Standing db)
    (hu : updateRole db user role = some db') (hm : ∀ a ∈ masters db', Active db a.user) :
    Standing db' := by
  obtain ⟨husers, hnext, haccounts, hle, -⟩ := updateRole_some hu
  refine ⟨?_, ?_, ?_, ?_, hle, ?_⟩
  · rw [husers]; exact h.userIds
  · have hkeep : (Rows.update (fun a => a.user == user) (fun a => { a with role })
        db.accounts).map Account.user = db.accounts.map Account.user :=
      Rows.map_update Account.user fun _ _ _ => rfl
    rw [haccounts, hkeep]
    exact h.accountIds
  · rw [husers, hnext]; exact h.fresh
  · intro a ha
    rw [haccounts, Rows.mem_update] at ha
    rw [husers]
    rcases ha with ⟨old, hold, -, rfl⟩ | ⟨ha, -⟩
    · exact h.linked old hold
    · exact h.linked a ha
  · intro a ha
    obtain ⟨u, hmem, he⟩ := hm a ha
    exact ⟨u, husers ▸ hmem, he⟩

/-- A lower role makes nobody a master. -/
theorem masters_updateRole (hrole : role ≠ .master)
    (hu : updateRole db user role = some db') {a : Account} :
    a ∈ masters db' ↔ a ∈ masters db ∧ a.user ≠ user := by
  obtain ⟨-, -, haccounts, -, -⟩ := updateRole_some hu
  rw [mem_masters, mem_masters, haccounts, Rows.mem_update]
  constructor
  · intro ha
    obtain ⟨ha | ha, hr⟩ := ha
    · obtain ⟨old, -, -, rfl⟩ := ha
      exact absurd hr hrole
    · exact ⟨⟨ha.1, hr⟩, by simpa using ha.2⟩
  · intro ha
    obtain ⟨⟨ha, hr⟩, hne⟩ := ha
    exact ⟨.inr ⟨ha, by simpa using hne⟩, hr⟩

/-- **A role set on an account that is not the master.** -/
theorem updateRole_carries (h : Standing db) {role : Assignable}
    (hu : updateRole db user role.1 = some db') (hne : ∀ a ∈ masters db, a.user ≠ user) :
    Carries db db' := by
  refine ⟨updateRole_standing h hu fun a ha => ?_, fun hm => ?_⟩
  · exact h.working a ((masters_updateRole role.2 hu).mp ha).1
  · obtain ⟨a, ha⟩ := List.exists_mem_of_ne_nil _ hm
    exact List.ne_nil_of_mem ((masters_updateRole role.2 hu).mpr ⟨ha, hne a ha⟩)

/-- **A new master**: the index lets it be the only one. -/
theorem masters_crowned (hu : updateRole db user .master = some db') :
    masters db' = [⟨user, .master⟩] := by
  obtain ⟨-, -, haccounts, hle, a, ha, rfl⟩ := updateRole_some hu
  have hmem : (⟨a.user, .master⟩ : Account) ∈ masters db' := by
    rw [mem_masters, haccounts, Rows.mem_update]
    exact ⟨.inl ⟨a, ha, beq_self_eq_true _, rfl⟩, rfl⟩
  have hlen : (masters db').length = 1 := Nat.le_antisymm hle (List.length_pos_of_mem hmem)
  obtain ⟨b, hb⟩ := List.length_eq_one_iff.mp hlen
  rw [hb, List.mem_singleton] at hmem
  rw [hb, hmem]

theorem crowned_standing (h : Standing db)
    (hu : updateRole db user .master = some db') (ha : Active db user) : Standing db' := by
  refine updateRole_standing h hu fun a hm => ?_
  rw [masters_crowned hu, List.mem_singleton] at hm
  rw [hm]
  exact ha

/-- Another account that is the master is in the way. -/
theorem updateRole_refused {a : Account} (ha : a ∈ masters db) (hne : a.user ≠ user) :
    updateRole db user .master = none := by
  cases hu : updateRole db user .master with
  | none => rfl
  | some db' =>
    obtain ⟨-, -, haccounts, -, -⟩ := updateRole_some hu
    have hmem : a ∈ masters db' := by
      rw [mem_masters] at ha ⊢
      rw [haccounts, Rows.mem_update]
      exact ⟨.inr ⟨ha.1, by simpa using hne⟩, ha.2⟩
    rw [masters_crowned hu, List.mem_singleton] at hmem
    rw [hmem] at hne
    exact absurd rfl hne

/-- **A hand-over**, to a successor whose user is active, or refused because a third account is the
    master. -/
theorem handOver_carries (h : Standing db) {current successor : Nat}
    (ht : Active db successor ∨ ∃ a ∈ masters db, a.user ≠ current ∧ a.user ≠ successor)
    (hh : handOver db current successor = some db') : Carries db db' := by
  rw [handOver] at hh
  obtain ⟨mid, hmid, hh⟩ := Option.bind_eq_some_iff.mp hh
  have hlower := fun a => masters_updateRole (a := a) (by decide) hmid
  have hstand : Standing mid :=
    updateRole_standing h hmid fun a ha => h.working a ((hlower a).mp ha).1
  have hactive : Active mid successor := by
    rcases ht with hactive | ⟨a, ha, hcur, hsucc⟩
    · obtain ⟨u, hu, he⟩ := hactive
      exact ⟨u, (updateRole_some hmid).1 ▸ hu, he⟩
    · rw [updateRole_refused ((hlower a).mpr ⟨ha, hcur⟩) hsucc] at hh
      cases hh
  refine ⟨crowned_standing hstand hh hactive, fun _ => ?_⟩
  rw [masters_crowned hh]
  exact List.cons_ne_nil _ _

/-- A first master, whose user is active, or refused because there is another one. -/
theorem crown_carries (h : Standing db) (ht : Active db user ∨ ∃ a ∈ masters db, a.user ≠ user)
    (hu : updateRole db user .master = some db') : Carries db db' := by
  have hactive : Active db user := by
    rcases ht with hactive | ⟨a, ha, hne⟩
    · exact hactive
    · rw [updateRole_refused ha hne] at hu
      cases hu
  refine ⟨crowned_standing h hu hactive, fun _ => ?_⟩
  rw [masters_crowned hu]
  exact List.cons_ne_nil _ _

/-- **A user switched on**, or one switched off that is not the master's. -/
theorem setActive_carries (h : Standing db) {active : Bool}
    (ht : active = false → ∀ a ∈ masters db, a.user ≠ user)
    (hs : setActive db user active = some db') : Carries db db' := by
  rw [setActive] at hs
  obtain ⟨-, ⟨⟩⟩ := Option.ite_none_right_eq_some.mp hs
  have hkeep : (Rows.update (fun u => u.id == user) (fun u => { u with active }) db.users).map User.id =
      db.users.map User.id := Rows.map_update User.id fun _ _ _ => rfl
  have hid : ∀ u ∈ db.users, ∃ u' ∈ Rows.update (fun u => u.id == user)
      (fun u => { u with active }) db.users, u'.id = u.id := by
    intro u hu
    have hmem : u.id ∈ db.users.map User.id := List.mem_map_of_mem hu
    rw [← hkeep] at hmem
    obtain ⟨u', hu', he⟩ := List.mem_map.mp hmem
    exact ⟨u', hu', he⟩
  refine ⟨⟨hkeep ▸ h.userIds, h.accountIds, ?_, ?_, h.one, ?_⟩, id⟩
  · intro u hu
    obtain ⟨old, hold, -, rfl⟩ | ⟨hu, -⟩ := Rows.mem_update.mp hu
    · exact h.fresh old hold
    · exact h.fresh u hu
  · intro a ha
    obtain ⟨u, hu, he⟩ := h.linked a ha
    obtain ⟨u', hu', he'⟩ := hid u hu
    exact ⟨u', hu', he'.trans he⟩
  · intro a ha
    obtain ⟨u, hu, he, hact⟩ := h.working a ha
    by_cases hsame : u.id = user
    · cases active with
      | false => exact absurd (he.symm.trans hsame) (ht rfl a ha)
      | true =>
        exact ⟨{ u with active := true }, Rows.mem_update.mpr
          (.inl ⟨u, hu, beq_iff_eq.mpr hsame, rfl⟩), he, rfl⟩
    · exact ⟨u, Rows.mem_update.mpr (.inr ⟨hu, by simpa using hsame⟩), he, hact⟩

theorem accountOf_carries (h : Standing db) (ha : accountOf db user = some db') :
    Carries db db' := by
  rw [accountOf] at ha
  split at ha
  · cases ha
    exact .refl h
  · rename_i hnone
    obtain ⟨hany, ha⟩ := Option.ite_none_right_eq_some.mp ha
    cases ha
    have hmasters : masters { db with accounts := db.accounts ++ [⟨user, .viewer⟩] } = masters db := by
      show (db.accounts ++ [_]).filter _ = _
      rw [List.filter_append]
      exact List.append_nil _
    refine ⟨⟨h.userIds, ?_, h.fresh, ?_, hmasters ▸ h.one, ?_⟩, ?_⟩
    · show ((db.accounts ++ [_]).map Account.user).Nodup
      rw [List.map_append, List.map_singleton, List.nodup_append]
      refine ⟨h.accountIds, List.nodup_singleton _, fun id hid id' hid' heq => hnone ?_⟩
      obtain ⟨a, hmem, rfl⟩ := List.mem_map.mp hid
      rw [List.mem_singleton.mp hid'] at heq
      exact List.any_eq_true.mpr ⟨a, hmem, beq_iff_eq.mpr heq⟩
    · intro a hmem
      rcases List.mem_append.mp hmem with hmem | hmem
      · exact h.linked a hmem
      · obtain ⟨u, hu, he⟩ := List.any_eq_true.mp hany
        rw [List.mem_singleton.mp hmem]
        exact ⟨u, hu, beq_iff_eq.mp he⟩
    · intro a hmem
      rw [hmasters] at hmem
      exact h.working a hmem
    · rw [hmasters]
      exact id

/-! ## 6. Runs -/

/-- **What was read still holds** when the block runs: an account whose role is set or whose user is
    switched off is not the master, and a successor's user is active (or the index refuses the block,
    because a third account is the master). -/
def TimelyBlock (db : Db) : Flight → Prop
  | .settingRole account _ => ∀ a ∈ masters db, a.user ≠ account.user
  | .settingActive account active => active = false → ∀ a ∈ masters db, a.user ≠ account.user
  | .handingOver current successor => Active db successor.user ∨
      ∃ a ∈ masters db, a.user ≠ current.user ∧ a.user ≠ successor.user
  | .crowning successor => Active db successor.user ∨ ∃ a ∈ masters db, a.user ≠ successor.user
  | _ => True

instance (db : Db) (user : Nat) : Decidable (Active db user) := by
  unfold Active
  infer_instance

instance (db : Db) (flight : Flight) : Decidable (TimelyBlock db flight) := by
  unfold TimelyBlock
  split <;> infer_instance

theorem getD_carries (h : Standing db) {block : Option Db}
    (hb : ∀ db', block = some db' → Carries db db') : Carries db (block.getD db) := by
  cases block with
  | none => exact .refl h
  | some db' => exact hb db' rfl

/-- One step of one call. -/
theorem advance_carries (h : Standing db) {flight : Flight} (ht : TimelyBlock db flight)
    (passes : Bool) : Carries db (advance db passes flight).1 := by
  cases flight with
  | called user op => exact .refl h
  | allowed user op =>
    cases op with
    | create username role => exact .refl h
    | setRole id role => exact .refl h
    | setActive id active => exact .refl h
    | makeMaster id => exact .refl h
    | handOver id =>
      cases user with
      | none => exact .refl h
      | some user =>
        show Carries db (match accountOf db user with
          | none => (db, none)
          | some db => (db, (find db user).map fun current => .handing user current id) :
          Db × Option Flight).1
        cases ha : accountOf db user with
        | none => exact .refl h
        | some db' => exact accountOf_carries h ha
  | counted username role first => exact .refl h
  | creating username role => exact getD_carries h fun _ hc => createAccount_carries h hc
  | settingRole account role => exact getD_carries h fun _ hu => updateRole_carries h hu ht
  | settingActive account active => exact getD_carries h fun _ hs => setActive_carries h ht hs
  | handing _ _ _ | confirming _ _ => exact .refl h
  | handingOver current successor => exact getD_carries h fun _ hh => handOver_carries h ht hh
  | finding successor => exact .refl h
  | crowning successor => exact getD_carries h fun _ hu => crown_carries h ht hu

/-- The block a step commits, if it commits one, is timely. -/
def Timely (w : World) : Action → Prop
  | .advance thread _ => ∀ flight ∈ w.flights thread, TimelyBlock w.db flight
  | _ => True

instance (w : World) (a : Action) : Decidable (Timely w a) := by
  unfold Timely
  split <;> infer_instance

theorem step_carries {w w' : World} {a : Action} (h : Standing w.db) (hs : step w a = some w')
    (ht : Timely w a) : Carries w.db w'.db := by
  cases a with
  | call thread user op =>
    obtain ⟨-, ⟨⟩⟩ := Option.ite_none_right_eq_some.mp hs
    exact .refl h
  | advance thread passes =>
    obtain ⟨flight, hf, rfl⟩ := Option.map_eq_some_iff.mp hs
    exact advance_carries h (ht flight hf) passes
  | drop thread =>
    cases hs
    exact .refl h

/-- **One working master.** In every run of timely steps, from tables that stand: once there is a
    master, every later state has exactly one account with the role, and its user is active. -/
theorem one_working_master {w w' w'' : World} {before after : List Action} (h : Standing w.db)
    (hbefore : Runs.run step w before = some w') (hm : masters w'.db ≠ [])
    (hafter : Runs.run step w' after = some w'') (ht : Runs.Along step Timely w before)
    (ht' : Runs.Along step Timely w' after) : OneWorking w''.db := by
  have hstand : Standing w'.db := Runs.run_invariant_along (I := fun v => Standing v.db)
    (fun s a t hs hc hI => (step_carries hI hs hc).1) hbefore ht h
  have hboth : Standing w''.db ∧ masters w''.db ≠ [] :=
    Runs.run_invariant_along (I := fun v => Standing v.db ∧ masters v.db ≠ [])
      (fun s a t hs hc hI => by
        obtain ⟨h1, h2⟩ := step_carries hI.1 hs hc
        exact ⟨h1, h2 hI.2⟩) hafter ht' ⟨hstand, hm⟩
  exact hboth.1.oneWorking hboth.2

/-! ## 7. Two calls of the master -/

/-- The master and an admin, and no call under way. -/
def twoAccounts : World where
  db := ⟨[⟨1, "root", true⟩, ⟨2, "sara", true⟩], [⟨1, .master⟩, ⟨2, .admin⟩], 3⟩
  flights := fun _ => none

theorem standing_twoAccounts : Standing twoAccounts.db :=
  ⟨by decide, by decide, by decide, by decide, by decide, by decide⟩

/-- The role is handed over. -/
def handsOver : List Action :=
  [.call 1 (some 1) (.handOver 2), .advance 1 true, .advance 1 true, .advance 1 true,
    .advance 1 true, .advance 1 true]

/-- The successor's role is set meanwhile: its account is read before and written after. -/
def setsRoleMeanwhile : List Action :=
  [.call 0 (some 1) (.setRole 2 (some ⟨.viewer, by decide⟩)), .advance 0 true, .advance 0 true] ++
    handsOver ++ [.advance 0 true]

theorem one_working_master_handedOver : ∃ w, Runs.run step twoAccounts handsOver = some w ∧
    OneWorking w.db := by
  have hreached : ∃ w, Runs.run step twoAccounts handsOver = some w := ⟨_, rfl⟩
  obtain ⟨w, hrun⟩ := hreached
  have hbefore : Runs.run step twoAccounts [] = some twoAccounts := rfl
  exact ⟨w, hrun, one_working_master standing_twoAccounts hbefore (by decide) hrun trivial (by decide)⟩

/-- **The master can be demoted**: its role is written on an account that was read before it became
    the master. -/
theorem master_demoted : ¬ (∀ (w w' w'' : World) (before after : List Action), Standing w.db →
    Runs.run step w before = some w' → masters w'.db ≠ [] → Runs.run step w' after = some w'' →
    OneWorking w''.db) := by
  intro h
  have hreached : ∃ w, Runs.run step twoAccounts setsRoleMeanwhile = some w ∧ masters w.db = [] :=
    ⟨_, rfl, by decide⟩
  obtain ⟨w, hrun, hnone⟩ := hreached
  obtain ⟨a, ha, -⟩ := h twoAccounts twoAccounts w [] setsRoleMeanwhile standing_twoAccounts rfl
    (by decide) hrun
  rw [hnone] at ha
  cases ha

end Dbs.Accounts
