/-
  File:      Dbs/Payload/Members.lean
  Subject:   MANY-TO-MANY VALUES OF A PAGE (serialize.py, AllRowsSerializer): asked for once for a
             page of objects, and grouped in memory, or asked for object by object.

  The database is a parameter: tables as lists in any order, keys in a linear order, and what the
  natural key of a row is, or that it raises.

  * `naturalKeyOf` -- with the cache of natural keys; `Faithful` -- it holds what the database says;
  * `membersOf`, `prepare` -- the prefetch; `queryMembers` -- the query for one object;
  * `writePage` -- what is written for the objects of a page, with or without the prefetch;
  * `lookup_grouped` -- the groups hold the links of each object, each member once;
  * `membersOf_gives` -- for an object of the page they are what its own query finds;
  * `prefetched_eq_queried` -- both write the same, and raise for the same pages.
-/
import Dbs.Lib.Rows

namespace Dbs.Members

/-! ## 1. Natural keys -/

/-- `(model, column, value)`. -/
abbrev CacheKey (μ : Type) := String × String × μ

/-- `natural_keys`. -/
abbrev Cache (μ ν : Type) := List (CacheKey μ × ν)

def naturalKeyCache : Nat := 10000

variable {κ μ ν : Type} [DecidableEq κ] [LinearOrder μ]

/-- The natural key of the row with that value in that column; nothing where the query or the model's
    method raises. -/
abbrev Database (μ ν : Type) := CacheKey μ → Option ν

def naturalKeyOf (db : Database μ ν) (cache : Cache μ ν) (key : CacheKey μ) : Option (ν × Cache μ ν) :=
  match cache.lookup key with
  | some value => some (value, cache)
  | none => do
    let value ← db key
    return (value, (key, value) :: if naturalKeyCache ≤ cache.length then [] else cache)

/-- What is cached is what the database says. -/
def Faithful (db : Database μ ν) (cache : Cache μ ν) : Prop :=
  ∀ entry ∈ cache, db entry.1 = some entry.2

/-- A result, with a cache that is still faithful. -/
def Gives (db : Database μ ν) {α : Type} (found : Option (α × Cache μ ν)) (value : Option α) : Prop :=
  ∃ cache, Faithful db cache ∧ found = value.map fun a => (a, cache)

section Cached

variable {db : Database μ ν} {cache : Cache μ ν}

omit [LinearOrder μ] in
theorem gives_pure {α : Type} (hcache : Faithful db cache) (a : α) :
    Gives db (some (a, cache)) (some a) := ⟨cache, hcache, rfl⟩

omit [LinearOrder μ] in
/-- One step after another, each with the cache the one before left. -/
theorem Gives.bind {α β : Type} {found : Option (α × Cache μ ν)} {value : Option α}
    {f : α → Cache μ ν → Option (β × Cache μ ν)} {g : α → Option β} (hfirst : Gives db found value)
    (hnext : ∀ a cache, value = some a → Faithful db cache → Gives db (f a cache) (g a)) :
    Gives db (found.bind fun r => f r.1 r.2) (value.bind g) := by
  obtain ⟨cache, hcache, rfl⟩ := hfirst
  cases value with
  | none => exact ⟨cache, hcache, rfl⟩
  | some a => exact hnext a cache rfl hcache

theorem naturalKeyOf_gives (hcache : Faithful db cache) (key : CacheKey μ) :
    Gives db (naturalKeyOf db cache key) (db key) := by
  unfold naturalKeyOf
  cases hfound : cache.lookup key with
  | some value =>
    obtain ⟨front, tail, hsplit, -⟩ := List.lookup_eq_some_iff.mp hfound
    have hvalue : db key = some value := hcache (key, value) (by rw [hsplit]; simp)
    rw [hvalue]
    exact gives_pure hcache value
  | none =>
    cases hvalue : db key with
    | none => exact ⟨cache, hcache, rfl⟩
    | some value =>
      refine gives_pure (fun entry hentry => ?_) value
      rcases List.mem_cons.mp hentry with rfl | hentry
      · exact hvalue
      · split at hentry
        · exact absurd hentry List.not_mem_nil
        · exact hcache entry hentry

end Cached

/-! ## 2. Fields -/

/-- A many-to-many field: its through table as owner and member of each row, and the keys of the rows
    of the related table. -/
structure Field (κ μ ν : Type) where
  name : String
  related : String
  serialize : Bool
  autoCreated : Bool
  /-- `by_natural_key` of the related model. -/
  natural : Bool
  through : List (κ × μ)
  rows : List μ
  rows_nodup : rows.Nodup
  /-- `_value_from_field` of a primary key. -/
  plain : μ → ν

namespace Field

variable (f : Field κ μ ν) (db : Database μ ν)

/-- `filter(pk__in=…).order_by("pk")`. -/
def relatedRows (members : List μ) : List μ := Rows.orderBy id (f.rows.filter fun m => m ∈ members)

def valueOf (cache : Cache μ ν) (m : μ) : Option (ν × Cache μ ν) :=
  if f.natural then naturalKeyOf db cache (f.related, "pk", m) else some (f.plain m, cache)

def valuesOf (cache : Cache μ ν) : List μ → Option (List ν × Cache μ ν)
  | [] => some ([], cache)
  | m :: items => (f.valueOf db cache m).bind fun r =>
    (valuesOf r.2 items).bind fun s => some (r.1 :: s.1, s.2)

/-- `grouped.setdefault(owner, set()).add(member)`. -/
def addMember (owner : κ) (m : μ) : List (κ × List μ) → List (κ × List μ)
  | [] => [(owner, [m])]
  | (other, ms) :: grouped =>
    if other = owner then (other, if m ∈ ms then ms else ms ++ [m]) :: grouped
    else (other, ms) :: addMember owner m grouped

/-- A link to a row that is there. -/
def addLink (items : List μ) (g : List (κ × List μ)) (link : κ × μ) : List (κ × List μ) :=
  if link.2 ∈ items then addMember link.1 link.2 g else g

/-- The links by their owners. -/
def grouped (items : List μ) (links : List (κ × μ)) : List (κ × List μ) :=
  links.foldl (addLink items) []

/-- `_members_of`: for a page of keys, the values of each owner in it. -/
def membersOf (cache : Cache μ ν) (page : List κ) : Option (List (κ × List ν) × Cache μ ν) :=
  let links := f.through.filter fun link => link.1 ∈ page
  let items := f.relatedRows (links.map Prod.snd)
  (f.valuesOf db cache items).bind fun r =>
    let values := items.zip r.1
    ((grouped items links).mapM fun (group : κ × List μ) => do
      let ms := Rows.orderBy (fun m => items.idxOf m) group.2
      return (group.1, ← ms.mapM fun m => values.lookup m)).map fun members => (members, r.2)

/-- The query for one object. -/
def queryMembers (cache : Cache μ ν) (owner : κ) : Option (List ν × Cache μ ν) :=
  f.valuesOf db cache
    (f.relatedRows ((f.through.filter fun link => link.1 = owner).map Prod.snd))

/-- What `handle_m2m_field` writes for an object, if anything: `members` are the prefetched fields. -/
def write (excluded : String → Bool) (members : List (String × List (κ × List ν)))
    (cache : Cache μ ν) (owner : κ) : Option (Option (List ν) × Cache μ ν) :=
  if !f.autoCreated || excluded f.name then some (none, cache)
  else
    match members.lookup f.name with
    | some prefetched => some (some ((prefetched.lookup owner).getD []), cache)
    | none => (f.queryMembers db cache owner).map fun r => (some r.1, r.2)

end Field

/-! ## 3. A page -/

/-- The fields of a model; their names differ. -/
structure Model (κ μ ν : Type) where
  fields : List (Field κ μ ν)
  names_nodup : (fields.map Field.name).Nodup

section Page

variable (db : Database μ ν) (excluded : String → Bool)

/-- `prepare`: the fields that are fetched for the page. -/
def prepare (page : List κ) : List (Field κ μ ν) → Cache μ ν →
    Option (List (String × List (κ × List ν)) × Cache μ ν)
  | [], cache => some ([], cache)
  | f :: fields, cache =>
    if f.serialize && f.autoCreated && !excluded f.name then
      (f.membersOf db cache page).bind fun r =>
        (prepare page fields r.2).bind fun s => some ((f.name, r.1) :: s.1, s.2)
    else prepare page fields cache

/-- `self._current[name] = values`, if there is a value. -/
def put (name : String) (values : Option (List ν)) (rest : List (String × List ν)) :
    List (String × List ν) :=
  match values with
  | some values => (name, values) :: rest
  | none => rest

/-- The many-to-many fields of one object, as the serializer goes through them. -/
def writeObject (members : List (String × List (κ × List ν))) (owner : κ) :
    List (Field κ μ ν) → Cache μ ν → Option (List (String × List ν) × Cache μ ν)
  | [], cache => some ([], cache)
  | f :: fields, cache =>
    if f.serialize then
      (f.write db excluded members cache owner).bind fun r =>
        (writeObject members owner fields r.2).bind fun s => some (put f.name r.1 s.1, s.2)
    else writeObject members owner fields cache

/-- An object: its primary key, and the natural keys its foreign keys ask for. -/
structure Object (κ μ : Type) where
  pk : κ
  foreign : List (CacheKey μ)

def writeForeign : List (CacheKey μ) → Cache μ ν → Option (List ν × Cache μ ν)
  | [], cache => some ([], cache)
  | key :: keys, cache => (naturalKeyOf db cache key).bind fun r =>
    (writeForeign keys r.2).bind fun s => some (r.1 :: s.1, s.2)

/-- What is written of an object: its foreign keys, and its many-to-many fields. -/
abbrev Written (ν : Type) := List ν × List (String × List ν)

def writeObjects (members : List (String × List (κ × List ν))) (fields : List (Field κ μ ν)) :
    List (Object κ μ) → Cache μ ν → Option (List (Written ν) × Cache μ ν)
  | [], cache => some ([], cache)
  | obj :: page, cache =>
    (writeForeign db obj.foreign cache).bind fun q =>
      (writeObject db excluded members obj.pk fields q.2).bind fun r =>
        (writeObjects members fields page r.2).bind fun s => some ((q.1, r.1) :: s.1, s.2)

/-- `serialize` of a page, behind `prepare` or without it. -/
def writePage (model : Model κ μ ν) (prefetch : Bool) (page : List (Object κ μ)) (cache : Cache μ ν) :
    Option (List (Written ν) × Cache μ ν) :=
  (if prefetch && !page.isEmpty then prepare db excluded (page.map Object.pk) model.fields cache
    else some ([], cache)).bind fun r =>
    writeObjects db excluded r.1 model.fields page r.2

/-- All pages of a model, with one serializer. -/
def writePages (model : Model κ μ ν) (prefetch : Bool) :
    List (List (Object κ μ)) → Cache μ ν → Option (List (Written ν) × Cache μ ν)
  | [], cache => some ([], cache)
  | page :: pages, cache =>
    (writePage db excluded model prefetch page cache).bind fun r =>
      (writePages model prefetch pages r.2).bind fun s => some (r.1 ++ s.1, s.2)

end Page

/-! ## 4. What one query finds -/

namespace Field

variable {f : Field κ μ ν} {db : Database μ ν} {cache : Cache μ ν}

/-- The value of a member, without the cache. -/
def val (f : Field κ μ ν) (db : Database μ ν) (m : μ) : Option ν :=
  if f.natural then db (f.related, "pk", m) else some (f.plain m)

def targets (f : Field κ μ ν) (owner : κ) : List μ :=
  (f.through.filter fun link => link.1 = owner).map Prod.snd

/-- What the query for one object finds. -/
def queried (f : Field κ μ ν) (db : Database μ ν) (owner : κ) : Option (List ν) :=
  (f.relatedRows (f.targets owner)).mapM (f.val db)

omit [DecidableEq κ] in
theorem valueOf_gives (hcache : Faithful db cache) (m : μ) :
    Gives db (f.valueOf db cache m) (f.val db m) := by
  unfold valueOf val
  split
  · exact naturalKeyOf_gives hcache _
  · exact gives_pure hcache _

omit [DecidableEq κ] in
theorem valuesOf_gives (hcache : Faithful db cache) (items : List μ) :
    Gives db (f.valuesOf db cache items) (items.mapM (f.val db)) := by
  induction items generalizing cache with
  | nil => exact gives_pure hcache []
  | cons m items ih =>
    rw [valuesOf, List.mapM_cons]
    have hrest : ∀ v cache, f.val db m = some v → Faithful db cache →
        Gives db ((f.valuesOf db cache items).bind fun s => some (v :: s.1, s.2))
          ((items.mapM (f.val db)).bind fun vs => some (v :: vs)) := by
      intro v cache _ hcache
      have hvs : ∀ vs cache, items.mapM (f.val db) = some vs → Faithful db cache →
          Gives db (some (v :: vs, cache)) (some (v :: vs)) := fun vs _ _ hc => gives_pure hc (v :: vs)
      exact (ih hcache).bind hvs
    exact (valueOf_gives hcache m).bind hrest

theorem queryMembers_gives (hcache : Faithful db cache) (owner : κ) :
    Gives db (f.queryMembers db cache owner) (f.queried db owner) :=
  valuesOf_gives hcache _

variable {owner : κ}

omit [LinearOrder μ] in
theorem mem_targets {m : μ} : m ∈ f.targets owner ↔ (owner, m) ∈ f.through := by
  unfold targets
  constructor
  · intro hm
    obtain ⟨link, hlink, rfl⟩ := List.mem_map.mp hm
    obtain ⟨hthrough, howner⟩ := List.mem_filter.mp hlink
    rwa [← of_decide_eq_true howner]
  · exact fun hlink => List.mem_map.mpr ⟨(owner, m), List.mem_filter.mpr ⟨hlink, by simp⟩, rfl⟩

omit [DecidableEq κ] in
theorem relatedRows_eq (members : List μ) :
    f.relatedRows members = (Rows.orderBy id f.rows).filter fun m => m ∈ members :=
  Rows.orderBy_filter (by rw [List.map_id]; exact f.rows_nodup) _

omit [DecidableEq κ] in
theorem mem_relatedRows {members : List μ} {m : μ} :
    m ∈ f.relatedRows members ↔ m ∈ f.rows ∧ m ∈ members := by
  rw [relatedRows_eq, List.mem_filter, (Rows.orderBy_perm id f.rows).mem_iff, decide_eq_true_eq]

/-! ## 5. What is grouped -/

theorem lookup_addMember (owner other : κ) (m : μ) (g : List (κ × List μ)) :
    ((addMember owner m g).lookup other).getD [] =
      if owner = other then
        (let ms := (g.lookup owner).getD []
         if m ∈ ms then ms else ms ++ [m])
      else (g.lookup other).getD [] := by
  induction g with
  | nil =>
    rw [addMember, List.lookup_cons]
    by_cases h : owner = other
    · subst h
      simp
    · rw [if_neg h, beq_false_of_ne (Ne.symm h)]
  | cons entry g ih =>
    obtain ⟨first, ms⟩ := entry
    rw [addMember]
    by_cases hfirst : first = owner
    · subst hfirst
      rw [if_pos rfl, List.lookup_cons, List.lookup_cons, List.lookup_cons, beq_self_eq_true]
      by_cases h : first = other
      · subst h
        simp
      · rw [if_neg h, beq_false_of_ne (Ne.symm h)]
    · rw [if_neg hfirst, List.lookup_cons, List.lookup_cons, List.lookup_cons,
        beq_false_of_ne (Ne.symm hfirst)]
      by_cases hother : other = first
      · subst hother
        rw [beq_self_eq_true, if_neg (Ne.symm hfirst)]
      · rw [beq_false_of_ne hother]
        exact ih

variable {g : List (κ × List μ)}

theorem of_mem_addMember {m n : μ} {group : κ × List μ}
    (hgroup : group ∈ addMember owner n g) (hm : m ∈ group.2) : m = n ∨ ∃ old ∈ g, m ∈ old.2 := by
  induction g with
  | nil =>
    rw [addMember, List.mem_singleton] at hgroup
    rw [hgroup] at hm
    exact .inl (List.mem_singleton.mp hm)
  | cons entry g ih =>
    obtain ⟨first, ms⟩ := entry
    rw [addMember] at hgroup
    split at hgroup
    · rcases List.mem_cons.mp hgroup with rfl | hgroup
      · dsimp only at hm
        split at hm
        · exact .inr ⟨_, List.mem_cons_self, hm⟩
        · rcases List.mem_append.mp hm with hm | hm
          · exact .inr ⟨_, List.mem_cons_self, hm⟩
          · exact .inl (List.mem_singleton.mp hm)
      · exact .inr ⟨group, List.mem_cons_of_mem _ hgroup, hm⟩
    · rcases List.mem_cons.mp hgroup with rfl | hgroup
      · exact .inr ⟨_, List.mem_cons_self, hm⟩
      · rcases ih hgroup with h | ⟨old, hold, h⟩
        · exact .inl h
        · exact .inr ⟨old, List.mem_cons_of_mem _ hold, h⟩

variable {items : List μ}

/-- Only rows that are there are grouped. -/
theorem of_mem_grouped {links : List (κ × μ)} {group : κ × List μ} {m : μ}
    (hgroup : group ∈ grouped items links) (hm : m ∈ group.2) : m ∈ items := by
  have hfold : ∀ (links : List (κ × μ)) (g : List (κ × List μ)),
      (∀ old ∈ g, ∀ m ∈ old.2, m ∈ items) →
      ∀ group ∈ links.foldl (addLink items) g, ∀ m ∈ group.2, m ∈ items := by
    intro links
    induction links with
    | nil => exact fun g hg => hg
    | cons link links ih =>
      refine fun g hg => ih _ fun old hold m hm => ?_
      unfold addLink at hold
      split at hold
      · rename_i hitem
        rcases of_mem_addMember hold hm with rfl | ⟨older, holder, hm⟩
        · exact hitem
        · exact hg older holder m hm
      · exact hg old hold m hm
  exact hfold links [] (fun old hold => absurd hold List.not_mem_nil) group hgroup m hm

theorem nodup_addLink {link : κ × μ} (h : ((g.lookup owner).getD []).Nodup) :
    (((addLink items g link).lookup owner).getD []).Nodup := by
  unfold addLink
  split
  · rw [lookup_addMember]
    by_cases howner : link.1 = owner
    · subst howner
      rw [if_pos rfl]
      dsimp only
      split
      · exact h
      · rename_i hnew
        refine List.nodup_append.mpr ⟨h, List.nodup_singleton _, fun a ha b hb hab => hnew ?_⟩
        rwa [← List.mem_singleton.mp hb, ← hab]
    · rwa [if_neg howner]
  · exact h

theorem mem_addLink {link : κ × μ} {m : μ} :
    m ∈ ((addLink items g link).lookup owner).getD [] ↔
      m ∈ (g.lookup owner).getD [] ∨ ((owner, m) = link ∧ m ∈ items) := by
  obtain ⟨first, n⟩ := link
  rw [Prod.mk.injEq]
  unfold addLink
  by_cases hitem : n ∈ items
  · rw [if_pos hitem, lookup_addMember]
    by_cases howner : first = owner
    · subst howner
      rw [if_pos rfl]
      dsimp only
      split
      · rename_i hold
        exact ⟨.inl, fun h => h.elim id fun hm => hm.1.2 ▸ hold⟩
      · rw [List.mem_append, List.mem_singleton]
        exact or_congr_right ⟨fun hm => ⟨⟨rfl, hm⟩, hm ▸ hitem⟩, fun hm => hm.1.2⟩
    · rw [if_neg howner]
      exact ⟨.inl, fun h => h.elim id fun hm => absurd hm.1.1.symm howner⟩
  · rw [if_neg hitem]
    exact ⟨.inl, fun h => h.elim id fun hm => absurd (hm.1.2 ▸ hm.2) hitem⟩

/-- **The group of an owner holds its links to rows that are there**, each member once. -/
theorem lookup_grouped (items : List μ) (links : List (κ × μ)) (owner : κ) :
    (((grouped items links).lookup owner).getD []).Nodup ∧
      ∀ m, m ∈ ((grouped items links).lookup owner).getD [] ↔ (owner, m) ∈ links ∧ m ∈ items := by
  have hfold : ∀ (links : List (κ × μ)) (g : List (κ × List μ)), ((g.lookup owner).getD []).Nodup →
      (((links.foldl (addLink items) g).lookup owner).getD []).Nodup ∧
        ∀ m, m ∈ ((links.foldl (addLink items) g).lookup owner).getD [] ↔
          m ∈ (g.lookup owner).getD [] ∨ ((owner, m) ∈ links ∧ m ∈ items) := by
    intro links
    induction links with
    | nil => exact fun g hg => ⟨hg, fun m => by simp⟩
    | cons link links ih =>
      intro g hg
      obtain ⟨hnodup, hmem⟩ := ih (addLink items g link) (nodup_addLink hg)
      refine ⟨hnodup, fun m => ?_⟩
      rw [List.foldl_cons, hmem, mem_addLink, List.mem_cons, or_assoc, ← or_and_right]
  obtain ⟨hnodup, hmem⟩ := hfold links [] List.nodup_nil
  exact ⟨hnodup, fun m => (hmem m).trans (by simp)⟩

/-! ## 6. The prefetch finds the same -/

omit [DecidableEq κ] in
/-- The values of the members found, from those of all rows of the page. -/
theorem mapM_lookup {vs : List ν} (hvs : items.mapM (f.val db) = some vs)
    {ms : List μ} (hms : ∀ m ∈ ms, m ∈ items) :
    ms.mapM (fun m => (items.zip vs).lookup m) = ms.mapM (f.val db) := by
  refine Rows.mapM_congr fun m hm => ?_
  have hlookup : ∀ (items : List μ) (vs : List ν), items.mapM (f.val db) = some vs → m ∈ items →
      (items.zip vs).lookup m = f.val db m := by
    intro items
    induction items with
    | nil => exact fun vs _ hin => absurd hin List.not_mem_nil
    | cons n items ih =>
      intro vs hvs hin
      rw [List.mapM_cons] at hvs
      obtain ⟨v, hv, hvs⟩ := Option.bind_eq_some_iff.mp hvs
      obtain ⟨rest, hrest, hvs⟩ := Option.bind_eq_some_iff.mp hvs
      rw [← Option.some.inj hvs, List.zip_cons_cons, List.lookup_cons]
      by_cases hmn : m = n
      · subst hmn
        rw [beq_self_eq_true, hv]
      · rw [beq_false_of_ne hmn]
        exact ih rest hrest ((List.mem_cons.mp hin).resolve_left hmn)
  exact hlookup items vs hvs (hms m hm)

omit [DecidableEq κ] in
theorem nodup_relatedRows (members : List μ) : (f.relatedRows members).Nodup := by
  rw [relatedRows_eq]
  exact ((Rows.orderBy_perm id f.rows).nodup_iff.mpr f.rows_nodup).filter _

/-- A set of rows, sorted by their places. -/
theorem orderBy_idxOf {items ms : List μ} (hitems : items.Nodup) (hms : ms.Nodup)
    (hsub : ∀ m ∈ ms, m ∈ items) :
    Rows.orderBy (fun m => items.idxOf m) ms = items.filter fun m => m ∈ ms := by
  have hperm : ms.Perm (items.filter fun m => m ∈ ms) := by
    rw [List.perm_ext_iff_of_nodup hms (hitems.filter _)]
    intro m
    rw [List.mem_filter, decide_eq_true_eq]
    exact ⟨fun hm => ⟨hsub m hm, hm⟩, fun hm => hm.2⟩
  refine Rows.orderBy_eq hperm (List.Pairwise.filter _ ?_)
  rw [List.pairwise_iff_getElem]
  intro i j hi hj hij
  rwa [hitems.idxOf_getElem i hi, hitems.idxOf_getElem j hj]

/-- What one owner's own query looks at, among the rows of the page. -/
theorem relatedRows_owner {page : List κ} (hpage : owner ∈ page) {ms : List μ}
    (hms : ∀ m, m ∈ ms ↔ (owner, m) ∈ f.through ∧
      m ∈ f.relatedRows ((f.through.filter fun link => link.1 ∈ page).map Prod.snd)) :
    (f.relatedRows ((f.through.filter fun link => link.1 ∈ page).map Prod.snd)).filter
      (fun m => m ∈ ms) = f.relatedRows (f.targets owner) := by
  rw [relatedRows_eq (f.targets owner), relatedRows_eq, List.filter_filter]
  refine List.filter_congr fun m hm => ?_
  have hrow : m ∈ f.rows := (Rows.orderBy_perm id f.rows).mem_iff.mp hm
  rw [Bool.eq_iff_iff, Bool.and_eq_true, decide_eq_true_eq, decide_eq_true_eq, decide_eq_true_eq,
    hms, mem_targets, mem_relatedRows]
  constructor
  · exact fun h => h.1.1
  · intro hlink
    have hpaged : m ∈ (f.through.filter fun link => link.1 ∈ page).map Prod.snd :=
      List.mem_map.mpr ⟨(owner, m), List.mem_filter.mpr ⟨hlink, decide_eq_true hpage⟩, rfl⟩
    exact ⟨⟨hlink, hrow, hpaged⟩, hpaged⟩

omit [LinearOrder μ] in
/-- The prefetched values of an owner. -/
theorem lookup_mapM {h : List μ → Option (List ν)} (hnil : h [] = some [])
    {groups : List (κ × List μ)} {members : List (κ × List ν)}
    (hmembers : (groups.mapM fun group : κ × List μ => do return (group.1, ← h group.2)) = some members)
    (owner : κ) : h ((groups.lookup owner).getD []) = some ((members.lookup owner).getD []) := by
  induction groups generalizing members with
  | nil =>
    rw [← Option.some.inj hmembers]
    exact hnil
  | cons group groups ih =>
    obtain ⟨first, ms⟩ := group
    rw [List.mapM_cons] at hmembers
    obtain ⟨entry, hentry, hmembers⟩ := Option.bind_eq_some_iff.mp hmembers
    obtain ⟨rest, hrest, hmembers⟩ := Option.bind_eq_some_iff.mp hmembers
    obtain ⟨vs, hvs, hentry⟩ := Option.bind_eq_some_iff.mp hentry
    rw [← Option.some.inj hmembers, ← Option.some.inj hentry, List.lookup_cons, List.lookup_cons]
    by_cases howner : owner = first
    · subst howner
      rw [beq_self_eq_true]
      exact hvs
    · rw [beq_false_of_ne howner]
      exact ih hrest

/-- **For an object of the page the prefetch has what its own query finds**; it raises only where the
    query of an object does. -/
theorem membersOf_gives (hcache : Faithful db cache) (page : List κ) :
    ∃ members, Gives db (f.membersOf db cache page) members ∧
      (∀ found, members = some found →
        ∀ owner ∈ page, f.queried db owner = some ((found.lookup owner).getD [])) ∧
      (members = none → ∃ owner ∈ page, f.queried db owner = none) := by
  set links := f.through.filter fun link => link.1 ∈ page with hlinks
  set items := f.relatedRows (links.map Prod.snd) with hitems
  -- without the cache
  set members : Option (List (κ × List ν)) := (items.mapM (f.val db)).bind fun vs =>
    (grouped items links).mapM fun (group : κ × List μ) => do
      return (group.1, ← (Rows.orderBy (fun m => items.idxOf m) group.2).mapM
        fun m => (items.zip vs).lookup m) with hmembers
  have hgives : Gives db (f.membersOf db cache page) members := by
    have hgroups : ∀ vs cache, items.mapM (f.val db) = some vs → Faithful db cache →
        Gives db (((grouped items links).mapM fun (group : κ × List μ) => do
            return (group.1, ← (Rows.orderBy (fun m => items.idxOf m) group.2).mapM
              fun m => (items.zip vs).lookup m)).map fun members => (members, cache))
          ((grouped items links).mapM fun (group : κ × List μ) => do
            return (group.1, ← (Rows.orderBy (fun m => items.idxOf m) group.2).mapM
              fun m => (items.zip vs).lookup m)) := fun _ cache _ hc => ⟨cache, hc, rfl⟩
    exact (valuesOf_gives hcache items).bind hgroups
  refine ⟨members, hgives, fun found hfound owner howner => ?_, fun hnone => ?_⟩
  · obtain ⟨vs, hvs, hfound⟩ := Option.bind_eq_some_iff.mp hfound
    have hgroup := lookup_mapM (h := fun ms =>
      (Rows.orderBy (fun m => items.idxOf m) ms).mapM fun m => (items.zip vs).lookup m) rfl hfound owner
    obtain ⟨hnodup, hmem⟩ := lookup_grouped items links owner
    have hsub : ∀ m ∈ ((grouped items links).lookup owner).getD [], m ∈ items :=
      fun m hm => ((hmem m).mp hm).2
    have hown : ∀ m, m ∈ ((grouped items links).lookup owner).getD [] ↔
        (owner, m) ∈ f.through ∧ m ∈ items := fun m => by
      rw [hmem m, hlinks, List.mem_filter, and_iff_left (decide_eq_true howner)]
    rw [← hgroup, orderBy_idxOf (nodup_relatedRows _) hnodup hsub,
      mapM_lookup hvs fun m hm => (List.mem_filter.mp hm).1]
    rw [hitems, hlinks] at hown ⊢
    rw [relatedRows_owner howner hown]
    rfl
  · -- a row whose value raises is linked to an object of the page
    obtain ⟨m, hm, hval⟩ : ∃ m ∈ items, f.val db m = none := by
      cases hvs : items.mapM (f.val db) with
      | none => exact Rows.exists_of_mapM_eq_none hvs
      | some vs =>
        rw [hmembers, hvs] at hnone
        obtain ⟨group, hgroup, hraises⟩ := Rows.exists_of_mapM_eq_none hnone
        have hsub : ∀ m ∈ Rows.orderBy (fun m => items.idxOf m) group.2, m ∈ items := fun m hm =>
          of_mem_grouped hgroup ((Rows.orderBy_perm _ _).mem_iff.mp hm)
        rw [mapM_lookup hvs hsub] at hraises
        cases hgroupVs : (Rows.orderBy (fun m => items.idxOf m) group.2).mapM (f.val db) with
        | none =>
          obtain ⟨m, hm, hval⟩ := Rows.exists_of_mapM_eq_none hgroupVs
          exact ⟨m, hsub m hm, hval⟩
        | some ms => rw [hgroupVs] at hraises; exact absurd hraises nofun
    obtain ⟨hrow, hlinked⟩ := mem_relatedRows.mp hm
    obtain ⟨link, hlink, rfl⟩ := List.mem_map.mp hlinked
    obtain ⟨hthrough, hpage⟩ := List.mem_filter.mp hlink
    refine ⟨link.1, of_decide_eq_true hpage, Rows.mapM_eq_none ?_ hval⟩
    exact mem_relatedRows.mpr ⟨hrow, mem_targets.mpr hthrough⟩

end Field

/-! ## 7. The whole model -/

section Whole

variable {db : Database μ ν} {excluded : String → Bool} {cache : Cache μ ν}

/-- Fields that are written. -/
def Field.wanted (f : Field κ μ ν) (excluded : String → Bool) : Bool :=
  f.serialize && f.autoCreated && !excluded f.name

def objectValues (db : Database μ ν) (excluded : String → Bool) (owner : κ) :
    List (Field κ μ ν) → Option (List (String × List ν))
  | [] => some []
  | f :: fields =>
    if f.wanted excluded then
      (f.queried db owner).bind fun values =>
        (objectValues db excluded owner fields).bind fun rest => some ((f.name, values) :: rest)
    else objectValues db excluded owner fields

/-- What is written, without the cache and the prefetch. -/
def written (db : Database μ ν) (excluded : String → Bool) (fields : List (Field κ μ ν))
    (obj : Object κ μ) : Option (Written ν) :=
  (obj.foreign.mapM db).bind fun keys =>
    (objectValues db excluded obj.pk fields).bind fun values => some (keys, values)

/-- What is prefetched for a field is what an object's own query finds. -/
def Prefetched (db : Database μ ν) (excluded : String → Bool)
    (members : List (String × List (κ × List ν))) (owner : κ) (f : Field κ μ ν) : Prop :=
  f.wanted excluded = true → ∀ found, members.lookup f.name = some found →
    f.queried db owner = some ((found.lookup owner).getD [])

variable {members : List (String × List (κ × List ν))}

section

variable (hcache : Faithful db cache)

include hcache

theorem write_gives {owner : κ} {f : Field κ μ ν} (hwanted : f.wanted excluded = true)
    (hmembers : Prefetched db excluded members owner f) :
    Gives db (f.write db excluded members cache owner) ((f.queried db owner).map some) := by
  have hskip : ¬ (!f.autoCreated || excluded f.name) = true := by
    simp only [Field.wanted, Bool.and_eq_true, Bool.not_eq_true'] at hwanted
    simp [hwanted.1.2, hwanted.2]
  rw [Field.write, if_neg hskip]
  cases hfound : members.lookup f.name with
  | some found =>
    rw [hmembers hwanted found hfound]
    exact gives_pure hcache _
  | none =>
    obtain ⟨cache', hcache', hquery⟩ := Field.queryMembers_gives (f := f) hcache owner
    refine ⟨cache', hcache', ?_⟩
    dsimp only
    rw [hquery]
    cases f.queried db owner <;> rfl

theorem writeObject_gives {owner : κ} {fields : List (Field κ μ ν)}
    (hmembers : ∀ f ∈ fields, Prefetched db excluded members owner f) :
    Gives db (writeObject db excluded members owner fields cache)
      (objectValues db excluded owner fields) := by
  induction fields generalizing cache with
  | nil => exact gives_pure hcache []
  | cons f fields ih =>
    have hrest : ∀ {cache}, Faithful db cache → Gives db
        (writeObject db excluded members owner fields cache) (objectValues db excluded owner fields) :=
      fun hc => ih hc fun g hg => hmembers g (List.mem_cons_of_mem _ hg)
    -- what a field writes is put before the rest
    have hput : ∀ (values : Option (List ν)) cache, (f.queried db owner).map some = some values →
        Faithful db cache → Gives db
          ((writeObject db excluded members owner fields cache).bind fun s =>
            some (put f.name values s.1, s.2))
          ((objectValues db excluded owner fields).bind fun rest => some (put f.name values rest)) := by
      intro values cache _ hc
      have hpure : ∀ rest cache, objectValues db excluded owner fields = some rest →
          Faithful db cache → Gives db (some (put f.name values rest, cache))
            (some (put f.name values rest)) := fun _ _ _ hc => gives_pure hc _
      exact (hrest hc).bind hpure
    rw [writeObject, objectValues]
    by_cases hwanted : f.wanted excluded = true
    · have hserialize : f.serialize = true := by
        simp only [Field.wanted, Bool.and_eq_true] at hwanted
        exact hwanted.1.1
      have hgives := (write_gives hcache hwanted (hmembers f List.mem_cons_self)).bind hput
      rw [Option.bind_map] at hgives
      rw [if_pos hserialize, if_pos hwanted]
      exact hgives
    · rw [if_neg hwanted]
      by_cases hserialize : f.serialize = true
      · have hskip : (!f.autoCreated || excluded f.name) = true := by
          simp only [Field.wanted, hserialize, Bool.true_and, Bool.not_eq_true,
            Bool.and_eq_false_iff, Bool.not_eq_false'] at hwanted
          rcases hwanted with h | h
          · simp [h]
          · simp [h]
        rw [if_pos hserialize, Field.write, if_pos hskip]
        have hpure : ∀ rest cache, objectValues db excluded owner fields = some rest →
            Faithful db cache → Gives db (some (rest, cache)) (some rest) :=
          fun _ _ _ hc => gives_pure hc _
        have hgives := (hrest hcache).bind hpure
        rw [Option.bind_fun_some (x := objectValues db excluded owner fields)] at hgives
        exact hgives
      · rw [if_neg hserialize]
        exact hrest hcache

theorem writeForeign_gives (keys : List (CacheKey μ)) :
    Gives db (writeForeign db keys cache) (keys.mapM db) := by
  induction keys generalizing cache with
  | nil => exact gives_pure hcache []
  | cons key keys ih =>
    rw [writeForeign, List.mapM_cons]
    have hrest : ∀ v cache, db key = some v → Faithful db cache →
        Gives db ((writeForeign db keys cache).bind fun s => some (v :: s.1, s.2))
          ((keys.mapM db).bind fun vs => some (v :: vs)) := by
      intro v cache _ hcache
      have hvs : ∀ vs cache, keys.mapM db = some vs → Faithful db cache →
          Gives db (some (v :: vs, cache)) (some (v :: vs)) := fun vs _ _ hc => gives_pure hc (v :: vs)
      exact (ih hcache).bind hvs
    exact (naturalKeyOf_gives hcache key).bind hrest

theorem writeObjects_gives {fields : List (Field κ μ ν)} {page : List (Object κ μ)}
    (hmembers : ∀ obj ∈ page, ∀ f ∈ fields, Prefetched db excluded members obj.pk f) :
    Gives db (writeObjects db excluded members fields page cache)
      (page.mapM (written db excluded fields)) := by
  induction page generalizing cache with
  | nil => exact gives_pure hcache []
  | cons obj page ih =>
    have hpage : ∀ (w : Written ν) cache, Faithful db cache → Gives db
        ((writeObjects db excluded members fields page cache).bind fun s => some (w :: s.1, s.2))
        ((page.mapM (written db excluded fields)).bind fun ws => some (w :: ws)) := by
      intro w cache hc
      have hws : ∀ ws cache, page.mapM (written db excluded fields) = some ws → Faithful db cache →
          Gives db (some (w :: ws, cache)) (some (w :: ws)) := fun ws _ _ hc => gives_pure hc (w :: ws)
      exact (ih hc fun o ho => hmembers o (List.mem_cons_of_mem _ ho)).bind hws
    have hobject : ∀ keys cache, obj.foreign.mapM db = some keys → Faithful db cache → Gives db
        ((writeObject db excluded members obj.pk fields cache).bind fun r =>
          (writeObjects db excluded members fields page r.2).bind fun s =>
            some ((keys, r.1) :: s.1, s.2))
        ((objectValues db excluded obj.pk fields).bind fun values =>
          (page.mapM (written db excluded fields)).bind fun ws => some ((keys, values) :: ws)) := by
      intro keys cache _ hc
      have hvalues : ∀ values cache, objectValues db excluded obj.pk fields = some values →
          Faithful db cache → Gives db
            ((writeObjects db excluded members fields page cache).bind fun s =>
              some ((keys, values) :: s.1, s.2))
            ((page.mapM (written db excluded fields)).bind fun ws => some ((keys, values) :: ws)) :=
        fun values cache _ hc => hpage (keys, values) cache hc
      exact (writeObject_gives hc (hmembers obj List.mem_cons_self)).bind hvalues
    have hgives := (writeForeign_gives hcache obj.foreign).bind hobject
    have hvalue : (obj :: page).mapM (written db excluded fields) =
        (obj.foreign.mapM db).bind fun keys =>
          (objectValues db excluded obj.pk fields).bind fun values =>
          (page.mapM (written db excluded fields)).bind fun ws => some ((keys, values) :: ws) := by
      rw [List.mapM_cons, written]
      cases obj.foreign.mapM db with
      | none => rfl
      | some keys => cases objectValues db excluded obj.pk fields <;> rfl
    rw [writeObjects, hvalue]
    exact hgives

/-- **The prefetch of all fields**: what it holds of each, and where it raises. -/
theorem prepare_gives (page : List κ) {fields : List (Field κ μ ν)}
    (hnames : (fields.map Field.name).Nodup) :
    ∃ result, Gives db (prepare db excluded page fields cache) result ∧
      (∀ members, result = some members →
        (∀ entry ∈ members, entry.1 ∈ fields.map Field.name) ∧
        ∀ owner ∈ page, ∀ f ∈ fields, Prefetched db excluded members owner f) ∧
      (result = none → ∃ owner ∈ page, objectValues db excluded owner fields = none) := by
  induction fields generalizing cache with
  | nil =>
    refine ⟨some [], gives_pure hcache [], fun members hmembers => ?_, nofun⟩
    rw [← Option.some.inj hmembers]
    exact ⟨fun _ h => absurd h List.not_mem_nil, fun _ _ _ h => absurd h List.not_mem_nil⟩
  | cons f fields ih =>
    rw [List.map_cons, List.nodup_cons] at hnames
    obtain ⟨hname, hnames⟩ := hnames
    rw [prepare]
    by_cases hwanted : f.wanted excluded = true
    · have hfetch : (f.serialize && f.autoCreated && !excluded f.name) = true := hwanted
      rw [if_pos hfetch]
      obtain ⟨found, ⟨cache', hcache', hmembersOf⟩, hfound, hraises⟩ :=
        Field.membersOf_gives (f := f) hcache page
      rw [hmembersOf]
      cases found with
      | none =>
        refine ⟨none, ⟨cache', hcache', rfl⟩, nofun, fun _ => ?_⟩
        obtain ⟨owner, howner, hquery⟩ := hraises rfl
        refine ⟨owner, howner, ?_⟩
        rw [objectValues, if_pos hwanted, hquery]
        rfl
      | some found =>
        obtain ⟨result, ⟨cache'', hcache'', hprepare⟩, hsome, hnone⟩ := ih hcache' hnames
        refine ⟨result.map fun rest => (f.name, found) :: rest, ⟨cache'', hcache'', ?_⟩, ?_, ?_⟩
        · rw [Option.map_some, Option.bind_some]
          dsimp only
          rw [hprepare]
          cases result <;> rfl
        · intro members hmembers
          obtain ⟨rest, hrest, rfl⟩ := Option.map_eq_some_iff.mp hmembers
          obtain ⟨hkeys, hall⟩ := hsome rest hrest
          constructor
          · intro entry hentry
            rcases List.mem_cons.mp hentry with rfl | hentry
            · exact List.mem_cons_self
            · exact List.mem_cons_of_mem _ (hkeys entry hentry)
          · intro owner howner g hg hg' values hvalues
            rw [List.lookup_cons] at hvalues
            rcases List.mem_cons.mp hg with rfl | hg
            · rw [beq_self_eq_true] at hvalues
              rw [← Option.some.inj hvalues]
              exact hfound found rfl owner howner
            · have hne : g.name ≠ f.name := fun h => hname (h ▸ List.mem_map_of_mem hg)
              rw [beq_false_of_ne hne] at hvalues
              exact hall owner howner g hg hg' values hvalues
        · intro h
          obtain ⟨owner, howner, hraises⟩ := hnone (Option.map_eq_none_iff.mp h)
          refine ⟨owner, howner, ?_⟩
          rw [objectValues, if_pos hwanted, hraises]
          cases f.queried db owner <;> rfl
    · have hskip : ¬ (f.serialize && f.autoCreated && !excluded f.name) = true := hwanted
      rw [if_neg hskip]
      obtain ⟨result, hgives, hsome, hnone⟩ := ih hcache hnames
      refine ⟨result, hgives, fun members hmembers => ?_, fun h => ?_⟩
      · obtain ⟨hkeys, hall⟩ := hsome members hmembers
        refine ⟨fun entry hentry => List.mem_cons_of_mem _ (hkeys entry hentry), ?_⟩
        intro owner howner g hg
        rcases List.mem_cons.mp hg with rfl | hg
        · exact fun h => absurd h hwanted
        · exact hall owner howner g hg
      · obtain ⟨owner, howner, hraises⟩ := hnone h
        refine ⟨owner, howner, ?_⟩
        rw [objectValues, if_neg hwanted]
        exact hraises

/-- **A page is written the same, with the prefetch and without it.** -/
theorem writePage_gives (model : Model κ μ ν) (prefetch : Bool)
    (page : List (Object κ μ)) : Gives db (writePage db excluded model prefetch page cache)
      (page.mapM (written db excluded model.fields)) := by
  rw [writePage]
  split
  · obtain ⟨result, ⟨cache', hcache', hprepare⟩, hsome, hnone⟩ :=
      @prepare_gives κ μ ν _ _ db excluded cache hcache (page.map Object.pk) model.fields
        model.names_nodup
    rw [hprepare]
    cases result with
    | none =>
      obtain ⟨owner, howner, hraises⟩ := hnone rfl
      obtain ⟨obj, hobj, rfl⟩ := List.mem_map.mp howner
      have hwritten : written db excluded model.fields obj = none := by
        rw [written, hraises]
        cases obj.foreign.mapM db <;> rfl
      rw [Rows.mapM_eq_none hobj hwritten]
      exact ⟨cache', hcache', rfl⟩
    | some members =>
      exact writeObjects_gives hcache' fun obj hobj f hf =>
        (hsome members rfl).2 obj.pk (List.mem_map_of_mem hobj) f hf
  · exact writeObjects_gives hcache fun _ _ _ _ _ _ h => absurd h nofun

theorem writePages_gives (excluded : String → Bool)
    (model : Model κ μ ν) (prefetch : Bool) (pages : List (List (Object κ μ))) :
    Gives db (writePages db excluded model prefetch pages cache)
      (pages.flatten.mapM (written db excluded model.fields)) := by
  induction pages generalizing cache with
  | nil => exact gives_pure hcache []
  | cons page pages ih =>
    have hrest : ∀ ws cache, page.mapM (written db excluded model.fields) = some ws →
        Faithful db cache → Gives db
          ((writePages db excluded model prefetch pages cache).bind fun s => some (ws ++ s.1, s.2))
          ((pages.flatten.mapM (written db excluded model.fields)).bind fun vs => some (ws ++ vs)) := by
      intro ws cache _ hc
      have hvs : ∀ vs cache, pages.flatten.mapM (written db excluded model.fields) = some vs →
          Faithful db cache → Gives db (some (ws ++ vs, cache)) (some (ws ++ vs)) :=
        fun vs _ _ hc => gives_pure hc (ws ++ vs)
      exact (ih hc).bind hvs
    rw [writePages, List.flatten_cons, List.mapM_append]
    exact (writePage_gives hcache model prefetch page).bind hrest

end

/-- **Prefetched many-to-many values are those of the queries**: over all pages of a model, through one
    serializer, both ways write the same for each object, or both raise. -/
theorem prefetched_eq_queried (db : Database μ ν) (excluded : String → Bool) (model : Model κ μ ν)
    (pages : List (List (Object κ μ))) :
    (writePages db excluded model true pages []).map Prod.fst =
      (writePages db excluded model false pages []).map Prod.fst := by
  have hempty : Faithful db ([] : Cache μ ν) := fun _ h => absurd h List.not_mem_nil
  obtain ⟨c, -, hfetched⟩ := writePages_gives hempty excluded model true pages
  obtain ⟨d, -, hqueried⟩ := writePages_gives hempty excluded model false pages
  rw [hfetched, hqueried, Option.map_map, Option.map_map]
  rfl

end Whole

end Dbs.Members
