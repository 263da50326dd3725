import Mathlib.Data.Finset.Card

/-!
# Tables and searches by key

Going through a list of events that each touch the entry under their own key factors
by key: the entry is what the events under the key make of it, in their order. A
depth-first search that marks what it has met by a key enters a node only if no node with
its key was met before. The nodes entered by a search that finds nothing are closed under
children up to keys, and they are all the reachable nodes if no two of these have one key.
-/

set_option autoImplicit false

namespace KeyedFold
variable {κ ε σ : Type*} [DecidableEq κ] (key : ε → κ)

def under (k : κ) (es : List ε) : List ε := es.filter fun e => key e = k

variable (update : σ → ε → σ)

def step (table : κ → σ) (e : ε) : κ → σ :=
  Function.update table (key e) (update (table (key e)) e)

theorem foldl_step (es : List ε) (table : κ → σ) (k : κ) :
    es.foldl (step key update) table k = (under key k es).foldl update (table k) := by
  induction es generalizing table with
  | nil => rfl
  | cons e es ih =>
    rw [List.foldl_cons, ih]
    by_cases h : key e = k
    · simp [under, step, h]
    · simp [under, step, h, Function.update_of_ne (Ne.symm h)]

theorem foldl_overwrite (write : ε → σ) (es : List ε) (s : σ) :
    es.foldl (fun _ e => write e) s = (es.getLast?.map write).getD s := by
  induction es generalizing s with
  | nil => rfl
  | cons e es ih =>
    rw [List.foldl_cons, ih, List.getLast?_cons]
    cases es.getLast? <;> rfl

end KeyedFold

namespace KeyedSearch
open List Option
variable {ι κ : Type*} [DecidableEq κ] (children : ι → List ι) (key : ι → κ) (goal : ι → Bool)
  {f : ι → List ι → Option (Bool × List ι)} {seen : List ι} {r : Bool × List ι} {fuel : ℕ}
  {t : ι}

def visitAll (visit : ι → List ι → Option (Bool × List ι)) :
    List ι → List ι → Option (Bool × List ι)
  | [], seen => some (false, seen)
  | c::cs, seen => (visit c seen).bind fun r => if r.1 then some r else visitAll visit cs r.2

/-- Whether a goal is found from a node, and the nodes entered by then. The depth of
the recursion is bounded by `fuel`. -/
def visit : ℕ → ι → List ι → Option (Bool × List ι)
  | 0, _, _ => none
  | fuel+1, t, seen =>
    if goal t then some (true, seen)
    else if key t ∈ seen.map key then some (false, seen)
    else visitAll (visit fuel) (children t) (t::seen)

variable {children key goal}

theorem visitAll_mono {g : ι → List ι → Option (Bool × List ι)}
    (hfg : ∀ c seen r, f c seen = some r → g c seen = some r) (cs : List ι)
    (h : visitAll f cs seen = some r) : visitAll g cs seen = some r := by
  induction cs generalizing seen with
  | nil => exact h
  | cons c cs ih =>
    obtain ⟨q,hq,h⟩ := bind_eq_some_iff.mp h
    rw [visitAll, hfg c seen q hq, bind_some]
    cases hfound : q.1 with
    | true => rwa [hfound] at h
    | false =>
      rw [hfound] at h
      exact ih h

theorem visit_mono {fuel' : ℕ} (hle : fuel ≤ fuel')
    (h : visit children key goal fuel t seen = some r) :
    visit children key goal fuel' t seen = some r := by
  induction fuel generalizing fuel' t seen r with
  | zero => cases h
  | succ fuel ih =>
    obtain ⟨n,rfl⟩ := Nat.exists_eq_add_of_le' (lt_of_lt_of_le (Nat.succ_pos fuel) hle)
    rw [visit] at h ⊢
    split_ifs at h ⊢
    · exact h
    · exact h
    · exact visitAll_mono (fun c seen r => ih (by omega)) (children t) h

theorem visitAll_total {P : List ι → Prop} (cs : List ι) (hs : P seen)
    (hf : ∀ c ∈ cs, ∀ seen, P seen → ∃ r, f c seen = some r ∧ P r.2) :
    ∃ r, visitAll f cs seen = some r ∧ P r.2 := by
  induction cs generalizing seen with
  | nil => exact ⟨(false, seen),rfl,hs⟩
  | cons c cs ih =>
    obtain ⟨r,hr,hp⟩ := hf c mem_cons_self seen hs
    rw [visitAll, hr, bind_some]
    cases r.1 with
    | true => exact ⟨r,rfl,hp⟩
    | false => exact ih hp fun d hd => hf d (mem_cons_of_mem _ hd)

/-- Every level of the recursion marks a new key, so there is an end to it. -/
theorem visit_total (keys : Finset κ) (hkeys : ∀ t, key t ∈ keys) (fuel : ℕ) (t : ι)
    (seen : List ι) (hfuel : (keys \ (seen.map key).toFinset).card < fuel) :
    ∃ r, visit children key goal fuel t seen = some r ∧ seen ⊆ r.2 := by
  induction fuel generalizing t seen with
  | zero => exact absurd hfuel (Nat.not_lt_zero _)
  | succ fuel ih =>
    rw [visit]
    split_ifs with hgoal hseen
    · exact ⟨_,rfl,List.Subset.refl _⟩
    · exact ⟨_,rfl,List.Subset.refl _⟩
    · have hnew : (keys \ ((t::seen).map key).toFinset).card <
          (keys \ (seen.map key).toFinset).card := by
        refine Finset.card_lt_card ⟨?_,fun h => ?_⟩
        · refine Finset.sdiff_subset_sdiff (Finset.Subset.refl _) ?_
          rw [map_cons, toFinset_cons]
          exact Finset.subset_insert _ _
        · have hmem : key t ∈ keys \ (seen.map key).toFinset :=
            Finset.mem_sdiff.mpr ⟨hkeys t,fun hm => hseen (List.mem_toFinset.mp hm)⟩
          refine (Finset.mem_sdiff.mp (h hmem)).2 ?_
          rw [map_cons, toFinset_cons]
          exact Finset.mem_insert_self _ _
      obtain ⟨r,hr,hsub⟩ := visitAll_total (P := fun s => t::seen ⊆ s) (children t)
        (List.Subset.refl _) fun c _ s hs => by
          have hle : (keys \ (s.map key).toFinset).card ≤
              (keys \ ((t::seen).map key).toFinset).card := by
            refine Finset.card_le_card (Finset.sdiff_subset_sdiff (Finset.Subset.refl _) ?_)
            intro k hk
            rw [List.mem_toFinset] at hk ⊢
            exact map_subset key hs hk
          obtain ⟨r,hr,hsub⟩ := ih c s (by omega)
          exact ⟨r,hr,List.Subset.trans hs hsub⟩
      exact ⟨r,hr,List.Subset.trans (subset_cons_self t seen) hsub⟩

def Reach (children : ι → List ι) : ι → ι → Prop := Relation.ReflTransGen fun t c => c ∈ children t

/-- What a search from `ts` that finds nothing adds to the nodes that were entered before:
nodes reached from `ts` that are no goals, and whose children have keys of entered nodes. -/
structure Enters (children : ι → List ι) (key : ι → κ) (goal : ι → Bool)
    (ts seen entered : List ι) : Prop where
  kept : seen ⊆ entered
  marked : ∀ t ∈ ts, key t ∈ entered.map key
  reached : ∀ v ∈ entered, v ∉ seen → ∃ t ∈ ts, Reach children t v
  failed : ∀ v ∈ entered, v ∉ seen → goal v = false
  closed : ∀ v ∈ entered, v ∉ seen → ∀ c ∈ children v, key c ∈ entered.map key

omit [DecidableEq κ] in
theorem Enters.unchanged {ts : List ι} (h : ∀ t ∈ ts, key t ∈ seen.map key) :
    Enters children key goal ts seen seen :=
  ⟨List.Subset.refl _,h,fun _ h hn => absurd h hn,fun _ h hn => absurd h hn,
    fun _ h hn => absurd h hn⟩

omit [DecidableEq κ] in
theorem Enters.cons {ts mid entered : List ι} (h : Enters children key goal [t] seen mid)
    (hs : Enters children key goal ts mid entered) :
    Enters children key goal (t::ts) seen entered := by
  have hkeys : mid.map key ⊆ entered.map key := map_subset key hs.kept
  refine ⟨List.Subset.trans h.kept hs.kept,?_,fun v hv hn => ?_,fun v hv hn => ?_,
    fun v hv hn c hc => ?_⟩
  · rw [forall_mem_cons]
    exact ⟨hkeys (h.marked t mem_cons_self),hs.marked⟩
  · by_cases hmid : v ∈ mid
    · obtain ⟨u,hu,hr⟩ := h.reached v hmid hn
      rw [mem_singleton] at hu
      exact ⟨t,mem_cons_self,hu ▸ hr⟩
    · obtain ⟨u,hu,hr⟩ := hs.reached v hv hmid
      exact ⟨u,mem_cons_of_mem _ hu,hr⟩
  · by_cases hmid : v ∈ mid
    · exact h.failed v hmid hn
    · exact hs.failed v hv hmid
  · by_cases hmid : v ∈ mid
    · exact hkeys (h.closed v hmid hn c hc)
    · exact hs.closed v hv hmid c hc

omit [DecidableEq κ] in
theorem Enters.node {entered : List ι} (ht : goal t = false)
    (h : Enters children key goal (children t) (t::seen) entered) :
    Enters children key goal [t] seen entered := by
  have hmem : t ∈ entered := h.kept mem_cons_self
  have hnew {v : ι} (hvt : v ≠ t) (hn : v ∉ seen) : v ∉ t::seen := fun hm =>
    (mem_cons.mp hm).elim hvt hn
  refine ⟨List.Subset.trans (subset_cons_self t seen) h.kept,?_,fun v hv hn => ?_,
    fun v hv hn => ?_,fun v hv hn c hc => ?_⟩
  · rw [forall_mem_singleton]
    exact List.mem_map_of_mem hmem
  · refine ⟨t,mem_singleton_self t,?_⟩
    by_cases hvt : v = t
    · exact hvt ▸ .refl
    · obtain ⟨u,hu,hr⟩ := h.reached v hv (hnew hvt hn)
      exact Relation.ReflTransGen.head hu hr
  · by_cases hvt : v = t
    · rwa [hvt]
    · exact h.failed v hv (hnew hvt hn)
  · by_cases hvt : v = t
    · subst hvt
      exact h.marked c hc
    · exact h.closed v hv (hnew hvt hn) c hc

/-- A search finds a goal that is reached, or enters no goal. -/
def Searched (children : ι → List ι) (key : ι → κ) (goal : ι → Bool) (ts seen : List ι)
    (r : Bool × List ι) : Prop :=
  r.1 ∧ (∃ t ∈ ts, ∃ v, Reach children t v ∧ goal v) ∨
    r.1 = false ∧ Enters children key goal ts seen r.2

omit [DecidableEq κ] in
theorem visitAll_searched
    (hf : ∀ c seen r, f c seen = some r → Searched children key goal [c] seen r)
    (cs : List ι) (h : visitAll f cs seen = some r) : Searched children key goal cs seen r := by
  induction cs generalizing seen with
  | nil =>
    cases h
    exact .inr ⟨rfl,.unchanged fun _ h => absurd h not_mem_nil⟩
  | cons c cs ih =>
    obtain ⟨q,hq,h⟩ := bind_eq_some_iff.mp h
    obtain ⟨hfound,t,ht,hgoal⟩ | ⟨hfalse,hc⟩ := hf c seen q hq
    · rw [hfound, if_pos rfl] at h
      cases h
      rw [mem_singleton.mp ht] at hgoal
      exact .inl ⟨hfound,c,mem_cons_self,hgoal⟩
    · rw [hfalse, if_neg Bool.false_ne_true] at h
      obtain ⟨hfound,t,ht,hgoal⟩ | ⟨hr,hcs⟩ := ih h
      · exact .inl ⟨hfound,t,mem_cons_of_mem _ ht,hgoal⟩
      · exact .inr ⟨hr,hc.cons hcs⟩

theorem visit_searched (h : visit children key goal fuel t seen = some r) :
    Searched children key goal [t] seen r := by
  induction fuel generalizing t seen r with
  | zero => cases h
  | succ fuel ih =>
    rw [visit] at h
    split_ifs at h with hgoal hseen
    · cases h
      exact .inl ⟨rfl,t,mem_singleton_self t,t,.refl,hgoal⟩
    · cases h
      refine .inr ⟨rfl,.unchanged ?_⟩
      rwa [forall_mem_singleton]
    · obtain ⟨hfound,c,hc,v,hr,hv⟩ | ⟨hfalse,he⟩ :=
        visitAll_searched (fun c seen r => ih) (children t) h
      · exact .inl ⟨hfound,t,mem_singleton_self t,v,.head hc hr,hv⟩
      · exact .inr ⟨hfalse,he.node (Bool.eq_false_iff.mpr hgoal)⟩

omit [DecidableEq κ] in
theorem Enters.all {entered : List ι} (h : Enters children key goal [t] [] entered)
    (hkeys : ∀ u v, Reach children t u → Reach children t v → key u = key v → u = v)
    {v : ι} (hv : Reach children t v) : v ∈ entered := by
  have hmem {v : ι} (hv : Reach children t v) (hkey : key v ∈ entered.map key) : v ∈ entered := by
    obtain ⟨u,hu,hk⟩ := List.mem_map.mp hkey
    obtain ⟨s,hs,hr⟩ := h.reached u hu not_mem_nil
    rw [mem_singleton.mp hs] at hr
    exact hkeys u v hr hv hk ▸ hu
  induction hv with
  | refl => exact hmem .refl (h.marked t (mem_singleton_self t))
  | tail hr hc ih => exact hmem (hr.tail hc) (h.closed _ ih not_mem_nil _ hc)

/-- If no two reachable nodes have one key, a search finds something exactly when a goal
is reachable. -/
theorem visit_found_iff
    (hkeys : ∀ u v, Reach children t u → Reach children t v → key u = key v → u = v)
    (h : visit children key goal fuel t [] = some r) : r.1 ↔ ∃ v, Reach children t v ∧ goal v := by
  obtain ⟨hfound,s,hs,hv⟩ | ⟨hfalse,he⟩ := visit_searched h
  · rw [mem_singleton.mp hs] at hv
    exact iff_of_true hfound hv
  · refine iff_of_false (Bool.eq_false_iff.mp hfalse) fun ⟨v,hr,hv⟩ => ?_
    rw [he.failed v (he.all hkeys hr) not_mem_nil] at hv
    cases hv

end KeyedSearch
