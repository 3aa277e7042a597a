/-
# `Frozen.Chain.Result` — the leaf's code on its way up

`backend_query` stores a handler's code under HK(ret) at EVERY level, unless the handler
answers `-EEXIST`.  So what the caller finds there is the leaf's code only if every
backend in between turns the success of its child into `-EEXIST`.

`Leaves c V` follows this through a handler: if the last thing that happened is that
the leaf answered `r`, and since then the run has only been on its way back, then the
handler's code is `c` and the caller's item holds a number in the relation `V` to `r`
and the way.  Each class keeps `V` (code `-EEXIST`), except data/split, the branch of
request/switch with a rule's backend, and request/rewrite without a script: they return
0, and 0 is what `backend_query` then stores.
-/
import Frozen.Chain.Signal

namespace Frozen.Chain

variable {D W : Type}

/-- A code that `backend_query` stores. -/
def Stored (r : Int) : Prop := r ≠ -EBADF ∧ r ≠ -EEXIST

/-- The handler leaves the item of HK(ret) to `backend_query`. -/
def Handler.Plain (h : Handler D W) : Prop :=
  ∀ request w, ∀ item ∈ (h.run request w).2.1, item.1 ≠ .ret

/-- The same items, and the same under HK(ret). -/
structure Keeps (request request' : Request D) : Prop where
  keys : request'.keys = request.keys
  ret : request'.find .ret = request.find .ret

/-- Nothing but backends that have their child's answer. -/
def Back (events : List Event) : Prop := ∀ e ∈ events, ∃ c, e = .via c

/-- One of the classes that return 0 is on the way back. -/
def Lossy (way : List Event) : Prop :=
  .via .split ∈ way ∨ .via .switchRule ∈ way ∨ .via .rewriteNone ∈ way

/-- What relates the way back, the leaf's answer, and the number under HK(ret). -/
abbrev Trace := List Event → Int → Int → Prop

/-- What a query leaves behind: the items of the request in place, something in the
events, and, if the run has only been on its way back since an answer that is stored,
the code `c` and a number under HK(ret) that `V` holds of. -/
structure Leaves (L : DataLayer D) (c : Int) (V : Trace) (request : Request D)
    (s : State W) (o : Out D W) : Prop where
  keys : o.request.keys = request.keys
  events : ∃ new, o.state.events = s.events ++ new ∧ ¬ Back new ∧
    ∀ x, request.find .ret = some (L.ret x) → ∃ y, o.request.find .ret = some (L.ret y) ∧
      ∀ before r after, new = before ++ .answer r :: after → Back after → Stored r →
        o.ret = c ∧ V after r y

/-- A query that leaves 0 and a number that `V` holds of. -/
def Delivers (L : DataLayer D) (V : Trace) (q : Sem D W) : Prop :=
  ∀ request s, Leaves L 0 V request s (q request s)

/-- The number in an item for a result code. -/
def ssize (r : Int) : Int := Int.bmod r (2 ^ 64)

/-- The answer, or 0 if the way is lossy. -/
def delivered : Trace := fun way r y => (Lossy way → y = 0) ∧ (¬ Lossy way → y = ssize r)

theorem back_append {a b : List Event} : Back (a ++ b) ↔ Back a ∧ Back b :=
  List.forall_mem_append

/-- An answer with nothing but the way back after it is in the last part that
has more than that. -/
theorem answer_of_append {a b before after : List Event} {r : Int}
    (h : a ++ b = before ++ .answer r :: after) (hafter : Back after) (hb : ¬ Back b) :
    ∃ before', b = before' ++ .answer r :: after := by
  rcases List.append_eq_append_iff.mp h with ⟨mid, -, rfl⟩ | ⟨mid, -, hmid⟩
  · exact ⟨mid, rfl⟩
  · cases mid with
    | nil => exact ⟨[], hmid.symm⟩
    | cons e mid =>
        obtain ⟨-, rfl⟩ := List.cons_eq_cons.mp hmid
        exact absurd (back_append.mp hafter).2 hb

theorem answer_of_via {new before after : List Event} {r : Int} {c : Class}
    (h : new ++ [.via c] = before ++ .answer r :: after) (hafter : Back after) :
    ∃ after', after = after' ++ [.via c] ∧ Back after' ∧
      new = before ++ .answer r :: after' := by
  rcases List.eq_nil_or_concat after with rfl | ⟨after', e, rfl⟩
  · obtain ⟨-, he⟩ := List.append_inj' h rfl
    cases he
  · rw [List.concat_eq_append, ← List.cons_append, ← List.append_assoc] at h
    obtain ⟨rfl, he⟩ := List.append_inj' h rfl
    rw [List.concat_eq_append] at hafter ⊢
    exact ⟨after', by rw [he], (back_append.mp hafter).1, rfl⟩

theorem lossy_append {a b : List Event} : Lossy (a ++ b) ↔ Lossy a ∨ Lossy b := by
  simp only [Lossy, List.mem_append]
  tauto

section Pieces

variable {L : DataLayer D} {c : Int} {V : Trace} {q q' : Sem D W} {s : State W}
  {o : Out D W} {request : Request D}

theorem Keeps.refl (request : Request D) : Keeps request request := ⟨rfl, rfl⟩

theorem Keeps.modify {request' : Request D} (h : Keeps request request') {key : Key}
    (hkey : key ≠ .ret) (f : D → D) : Keeps request (request'.modify key f) :=
  ⟨Request.keys_modify.trans h.keys, (Request.find_modify_of_ne hkey.symm).trans h.ret⟩

/-- So does a handler from outside that leaves HK(ret) alone. -/
theorem Handler.Plain.call {h : Handler D W} (hplain : h.Plain) (request : Request D)
    (s : State W) : Keeps request (h.call request s).request :=
  ⟨Request.keys_assign, Request.find_assign_of_ne (hplain request s.world)⟩

theorem leaves_fail (ret : Int) : Leaves L c V request s (fail ret request s) := by
  refine ⟨rfl, [.failure ret], rfl, ?_, fun x hx => ⟨x, hx, ?_⟩⟩
  · simp [Back]
  · intro before r after hsplit
    simp [List.singleton_eq_append_iff] at hsplit

theorem Leaves.recode (h : Leaves L c V request s o) {ret c' : Int}
    (hret : o.ret = c → ret = c') : Leaves L c' V request s { o with ret } := by
  obtain ⟨hkeys, new, hnew, hne, hlast⟩ := h
  refine ⟨hkeys, new, hnew, hne, fun x hx => ?_⟩
  obtain ⟨y, hy, hr⟩ := hlast x hx
  exact ⟨y, hy, fun before r after hl ha hs =>
    ⟨hret (hr before r after hl ha hs).1, (hr before r after hl ha hs).2⟩⟩

theorem Delivers.via {V' : Trace} (h : Delivers L V q) {c : Class}
    (hV : ∀ {way r y}, V way r y → V' (way ++ [.via c]) r y) :
    Delivers L V' (Chain.via c q) := by
  intro request s
  obtain ⟨hkeys, new, hnew, hne, hlast⟩ := h request s
  refine ⟨hkeys, new ++ [.via c], ?_, fun hb => hne (back_append.mp hb).1, fun x hx => ?_⟩
  · show (q request s).state.events ++ [.via c] = _
    rw [hnew, List.append_assoc]
  · obtain ⟨y, hy, hr⟩ := hlast x hx
    refine ⟨y, hy, fun before r after hl ha hs => ?_⟩
    obtain ⟨after', rfl, ha', rfl⟩ := answer_of_via hl ha
    exact ⟨(hr before r after' rfl ha' hs).1, hV (hr before r after' rfl ha' hs).2⟩

theorem Delivers.viaKept (h : Delivers L delivered q) {c : Class}
    (hc : ¬ Lossy [.via c]) : Delivers L delivered (Chain.via c q) := by
  refine h.via fun hway => ?_
  rw [delivered, lossy_append, or_iff_left hc]
  exact hway

theorem Delivers.viaLossy (h : Delivers L V q) {c : Class} (hc : Lossy [.via c]) :
    Delivers L (fun way _ _ => Lossy way) (Chain.via c q) :=
  h.via fun _ => lossy_append.mpr (.inr hc)

/-- `-EEXIST` keeps what is there. -/
theorem Leaves.override (h : Leaves L (-EEXIST) V request s o) :
    Leaves L 0 V request s (override L o) := by
  unfold Chain.override
  split_ifs with hbad hexist
  · exact h.recode fun he => absurd (he.symm.trans hbad) EEXIST_ne_EBADF
  · exact h.recode fun _ => rfl
  · obtain ⟨hkeys, new, hnew, hne, hlast⟩ := h
    refine ⟨by rw [Request.keys_modify, hkeys], new, hnew, hne, fun x hx => ?_⟩
    obtain ⟨y, hy, hr⟩ := hlast x hx
    refine ⟨ssize o.ret, ?_, fun before r after hl ha hs =>
      absurd (hr before r after hl ha hs).1 hexist⟩
    rw [Request.find_modify_self, hy, Option.map_some, L.transfer_ret]
    rfl

/-- Any other success is stored: the answer is lost, as the way says. -/
theorem Leaves.override_zero (h : Leaves L 0 (fun way _ _ => Lossy way) request s o) :
    Leaves L 0 delivered request s (Chain.override L o) := by
  obtain ⟨hkeys, new, hnew, hne, hlast⟩ := h
  have hzero : (0 : Int) ≠ -EEXIST := by decide
  unfold Chain.override
  split_ifs with hbad hexist
  · refine ⟨hkeys, new, hnew, hne, fun x hx => ?_⟩
    obtain ⟨y, hy, hr⟩ := hlast x hx
    exact ⟨y, hy, fun before r after hl ha hs =>
      absurd ((hr before r after hl ha hs).1.symm.trans hbad) zero_ne_EBADF⟩
  · refine ⟨hkeys, new, hnew, hne, fun x hx => ?_⟩
    obtain ⟨y, hy, hr⟩ := hlast x hx
    exact ⟨y, hy, fun before r after hl ha hs =>
      absurd ((hr before r after hl ha hs).1.symm.trans hexist) hzero⟩
  · refine ⟨by rw [Request.keys_modify, hkeys], new, hnew, hne, fun x hx => ?_⟩
    obtain ⟨y, hy, hr⟩ := hlast x hx
    refine ⟨ssize o.ret, ?_, fun before r after hl ha hs => ⟨rfl, ?_⟩⟩
    · rw [Request.find_modify_self, hy, Option.map_some, L.transfer_ret]
      rfl
    · obtain ⟨hret, hway⟩ := hr before r after hl ha hs
      rw [hret]
      exact ⟨fun _ => by decide, fun h => absurd hway h⟩

theorem Delivers.pass (h : Delivers L V q) : Delivers L V (backendPass [q]) := by
  intro request s
  rw [backendPass_one]
  refine (h request s).recode fun h0 => ?_
  rw [h0]
  rfl

/-- The items are in place and HK(ret), if it could, can still take a code. -/
structure Usable (L : DataLayer D) (request request' : Request D) : Prop where
  keys : request'.keys = request.keys
  ret : ∀ x, request.find .ret = some (L.ret x) → ∃ y, request'.find .ret = some (L.ret y)

theorem Keeps.usable {request' : Request D} (h : Keeps request request') :
    Usable L request request' :=
  ⟨h.keys, fun x hx => ⟨x, h.ret.trans hx⟩⟩

theorem Leaves.before {request' : Request D} {s' : State W}
    (h : Leaves L c V request' s' o) (huse : Usable L request request')
    (hev : s'.events = s.events) : Leaves L c V request s o := by
  obtain ⟨hk, new, hnew, hne, hlast⟩ := h
  refine ⟨hk.trans huse.keys, new, hev ▸ hnew, hne, fun x hx => ?_⟩
  obtain ⟨y, hy⟩ := huse.ret x hx
  exact hlast y hy

theorem Leaves.afterwards (h : Leaves L c V request s o) {request' : Request D}
    {s' : State W} (hkeep : Keeps o.request request') (hev : s'.events = o.state.events) :
    Leaves L c V request s ⟨o.ret, request', s'⟩ := by
  obtain ⟨hk, new, hnew, hne, hlast⟩ := h
  refine ⟨hkeep.keys.trans hk, new, hev.trans hnew, hne, fun x hx => ?_⟩
  obtain ⟨y, hy, hr⟩ := hlast x hx
  exact ⟨y, hkeep.ret.trans hy, hr⟩

/-- Items in front are taken off again; HK(ret) is not among them. -/
theorem Leaves.dropFront {front : Request D} (h : Leaves L c V (front ++ request) s o)
    (hfront : .ret ∉ front.keys) :
    Leaves L c V request s { o with request := o.request.drop front.length } := by
  obtain ⟨hk, new, hnew, hne, hlast⟩ := h
  have hkeys : o.request.keys = front.keys ++ request.keys := by
    rw [hk]
    exact List.map_append
  have hlen : front.length = front.keys.length := (List.length_map _).symm
  rw [hlen]
  refine ⟨Request.keys_drop hkeys, new, hnew, hne, fun x hx => ?_⟩
  obtain ⟨y, hy, hr⟩ := hlast x (by rw [Request.find_append_of_notMem hfront]; exact hx)
  exact ⟨y, by rw [Request.find_drop hkeys hfront]; exact hy, hr⟩

theorem Delivers.withFront (h : Delivers L V q) {front : Request D}
    (hfront : .ret ∉ front.keys) : Delivers L V (withFront front q) :=
  fun request s => (h (front ++ request) s).dropFront hfront

/-- One query after another, the second with more items in front: what
the second leaves. -/
theorem Leaves.trans {c' : Int} {V' : Trace} {front : Request D} {o' : Out D W}
    (h : Leaves L c' V' request s o) (h' : Leaves L c V (front ++ o.request) o.state o')
    (hfront : .ret ∉ front.keys) : Leaves L c V (front ++ request) s o' := by
  obtain ⟨hk, new, hnew, hne, hlast⟩ := h
  obtain ⟨hk', new', hnew', hne', hlast'⟩ := h'
  have hkeys : Request.keys (front ++ o.request) = Request.keys (front ++ request) := by
    simp only [Request.keys, List.map_append]
    exact congrArg _ hk
  refine ⟨hk'.trans hkeys, new ++ new', by rw [hnew', hnew, List.append_assoc],
    fun h => hne (back_append.mp h).1, fun x hx => ?_⟩
  rw [Request.find_append_of_notMem hfront] at hx
  obtain ⟨y, hy, -⟩ := hlast x hx
  obtain ⟨y', hy', hr'⟩ :=
    hlast' y (by rw [Request.find_append_of_notMem hfront]; exact hy)
  refine ⟨y', hy', fun before r after hl ha hs => ?_⟩
  obtain ⟨before', rfl⟩ := answer_of_append hl ha hne'
  exact hr' before' r after rfl ha hs

/-- An error of the child, which the leaf's answer does not leave, ends the handler. -/
theorem Leaves.error (h : Leaves L 0 V request s o) (hneg : o.ret < 0) {V' : Trace} :
    Leaves L c V' request s o := by
  obtain ⟨hk, new, hnew, hne, hlast⟩ := h
  refine ⟨hk, new, hnew, hne, fun x hx => ?_⟩
  obtain ⟨y, hy, hr⟩ := hlast x hx
  refine ⟨y, hy, fun before r after hl ha hs => ?_⟩
  rw [(hr before r after hl ha hs).1] at hneg
  exact absurd hneg (lt_irrefl 0)

theorem Leaves.orExist (h : Leaves L 0 V request s o) :
    Leaves L (-EEXIST) V request s (orExist o) := by
  unfold Chain.orExist
  split_ifs with hneg
  · exact h.error hneg
  · exact h.recode fun _ => rfl

/-- One query after another: what the second leaves, unless the first fails. -/
theorem Leaves.andThen {V' : Trace} (h : Leaves L 0 V' request s (q request s))
    (h' : ∀ request s, Leaves L c V request s (q' request s)) :
    Leaves L c V request s (andThen q q' request s) := by
  unfold Chain.andThen
  dsimp only
  split_ifs with hneg
  · exact h.error hneg
  · have hnil : .ret ∉ Request.keys ([] : Request D) := List.not_mem_nil
    exact h.trans (h' _ _) hnil

theorem Leaves.andReturn (h : Leaves L 0 V request s (q request s)) (ret : Int) :
    Leaves L ret V request s
      (Chain.andThen q (fun request s => ⟨ret, request, s⟩) request s) := by
  unfold Chain.andThen
  dsimp only
  split_ifs with hneg
  · exact h.error hneg
  · exact h.recode fun _ => rfl

theorem Delivers.query_crwd {func : Action → Option (Sem D W)} {childs : List (Sem D W)}
    (hpass : Delivers L V (backendPass childs))
    (hfunc : ∀ a h, func a = some h → ∀ request s,
      Leaves L (-EEXIST) V request s (h request s)) :
    Delivers L V (backendQuery L (.crwd func) childs) := by
  intro request s
  unfold backendQuery
  dsimp only
  split
  · exact leaves_fail _
  · split_ifs
    · split
      · exact hpass request s
      · next hf => exact (hfunc _ _ hf request s).override
    · exact leaves_fail _

end Pieces

/-! ## Indexes and other handlers -/

section Outside

variable {L : DataLayer D} {s : State W} {request : Request D}

theorem Succeeds.plain {index : Handler D W} (h : Succeeds index) : index.Plain :=
  fun request w => (h request w).2

theorem Usable.override {o : Out D W} (h : Usable L request o.request) :
    Usable L request (Chain.override L o).request := by
  unfold Chain.override
  split_ifs
  · exact h
  · exact h
  · refine ⟨Request.keys_modify.trans h.keys, fun x hx => ?_⟩
    obtain ⟨y, hy⟩ := h.ret x hx
    refine ⟨ssize o.ret, ?_⟩
    rw [Request.find_modify_self, hy, Option.map_some, L.transfer_ret]
    rfl

theorem Handler.Plain.query {h : Handler D W} (hplain : h.Plain) (request : Request D)
    (s : State W) : Usable L request (h.query L request s).request :=
  (hplain.call request s).usable.override

theorem fillUpdate_keeps {index : Handler D W} (hidx : Succeeds index) (u : FillUserdata)
    (request : Request D) (s : State W) :
    Keeps request (fillUpdate L u (index.query L) request s).1.request := by
  have hkeys := (hidx.plain.query (L := L)
    ([(.action, L.action u.action), (.ret, L.ret u.stack)] ++ request) s).keys
  refine ⟨Request.keys_drop (show _ = [.action, .ret] ++ request.keys from hkeys), ?_⟩
  show Request.find .ret ((index.query L _ s).request.drop 2) = request.find .ret
  have hfront : Key.ret ∈ List.take 2 (Request.keys
      ([(.action, L.action u.action), (.ret, L.ret u.stack)] ++ request)) := by
    simp [Request.keys]
  rw [(hidx.query _ s).2,
    Request.drop_modify_of_front (by rw [Request.keys_assign]; exact hfront),
    Request.find_drop_assign_of_front hfront]
  rfl

end Outside

/-! ## Class by class -/

section Classes

variable {L : DataLayer D} {V : Trace} {child : Sem D W} {index : Handler D W}

theorem Delivers.leaf {h : Handler D W} (hplain : h.Plain) :
    Delivers L delivered (leafQuery L h) := by
  intro request s
  have hkeep := hplain.call request s
  have hne : ¬ Back [.answer (h.call request s).ret] := by simp [Back]
  have hlast : ∀ {before r after}, [Event.answer (h.call request s).ret]
      = before ++ .answer r :: after → (h.call request s).ret = r ∧ after = [] := by
    intro before r after hsplit
    have hparts : before = [] ∧ r = (h.call request s).ret ∧ after = [] := by
      simpa [List.singleton_eq_append_iff] using hsplit
    exact ⟨hparts.2.1.symm, hparts.2.2⟩
  unfold leafQuery backendQuery Chain.override
  dsimp only
  split_ifs with hbad hexist
  · refine ⟨hkeep.keys, [.answer _], rfl, hne, fun x hx => ⟨x, hkeep.ret.trans hx, ?_⟩⟩
    exact fun before r after hl _ hs => absurd ((hlast hl).1.symm.trans hbad) hs.1
  · refine ⟨hkeep.keys, [.answer _], rfl, hne, fun x hx => ⟨x, hkeep.ret.trans hx, ?_⟩⟩
    exact fun before r after hl _ hs => absurd ((hlast hl).1.symm.trans hexist) hs.2
  · refine ⟨Request.keys_modify.trans hkeep.keys, [.answer _], rfl, hne, fun x hx => ?_⟩
    refine ⟨ssize (h.call request s).ret, ?_, fun before r after hl _ _ => ⟨rfl, ?_⟩⟩
    · rw [Request.find_modify_self, hkeep.ret, hx, Option.map_some, L.transfer_ret]
      rfl
    · obtain ⟨rfl, rfl⟩ := hlast hl
      exact ⟨fun h => by simp [Lossy] at h, fun _ => rfl⟩

/-- A class with one handler that answers `-EEXIST` for success. -/
theorem Delivers.query_hash {q : Sem D W}
    (h : ∀ request s, Leaves L (-EEXIST) V request s (q request s))
    (childs : List (Sem D W)) : Delivers L V (backendQuery L (.hash q) childs) :=
  fun request s => (h request s).override

theorem Delivers.list (h : Delivers L V child) : Delivers L V (listQuery L child) := by
  have hlast : ∀ request s,
      Leaves L (-EEXIST) V request s (orExist (backendPass [child] request s)) :=
    fun request s => (h.pass request s).orExist
  refine h.pass.query_crwd fun a func hfunc request s => ?_
  cases a with
  | write =>
      cases hfunc
      unfold listsSet
      dsimp only
      split
      · exact hlast request s
      · split
        · exact leaves_fail _
        · exact (h.pass.withFront (by simp [Request.keys]) request s).andThen hlast
  | delete =>
      cases hfunc
      unfold listsDelete
      split
      · exact leaves_fail _
      · split
        · exact leaves_fail _
        · exact (h.pass.withFront (by simp [Request.keys]) request s).orExist
  | _ => cases hfunc

/-- None of the keys data/incapsulate scales is HK(ret). -/
structure IncapUserdata.Plain (u : IncapUserdata) : Prop where
  key : u.key ≠ .ret
  keyOut : u.keyOut ≠ .ret
  keyTo : u.keyTo ≠ .ret
  keyFrom : u.keyFrom ≠ .ret
  count : u.count ≠ .ret
  size : u.size ≠ .ret

theorem keeps_rounded {u : IncapUserdata} (hu : u.Plain) (f : D → D → D)
    (request : Request D) : Keeps request (match request.find u.size with
      | none => request
      | some d => request.modify u.size (f d)) := by
  split
  · exact Keeps.refl request
  · exact (Keeps.refl request).modify hu.size _

/-- The precedence of data/incapsulate does not matter if there is no error. -/
theorem incap_ret {ret : Int} (h : ret = 0) :
    (if (if ret < 0 then 1 else 0 : Int) ≠ 0 then (if ret < 0 then 1 else 0)
      else -EEXIST) = -EEXIST := by
  rw [h]
  rfl

theorem Delivers.incapsulate (h : Delivers L V child) {u : IncapUserdata} (hu : u.Plain) :
    Delivers L V (incapsulateQuery L u child) := by
  refine Delivers.query_hash (fun request s => ?_) _
  have hrounded := keeps_rounded hu
      (fun d => L.write (incapRound (UInt64.ofInt u.multiply)
    ((L.getUintt d).getD u.stack))) request
  unfold incapHandler
  dsimp only at hrounded ⊢
  have hscaled := ((hrounded.modify hu.key (L.multiply u.multiply)).modify hu.keyTo
    (L.multiply u.multiply)).modify hu.keyFrom (L.multiply u.multiply)
  have hchild := (h.pass _ s).before hscaled.usable rfl
  have hdivided := fun request : Request D => ((Keeps.refl request).modify hu.keyOut
    (L.divide u.multiply)).modify hu.count (L.divide u.multiply)
  exact (hchild.afterwards (hdivided _) rfl).recode incap_ret

theorem lookup_usable (hplain : index.Plain) {u : LookupUserdata}
    (hu : u.output ≠ .ret) (output : D) (request : Request D) (s : State W) :
    Usable L request
      ((index.query L ([(.action, L.action .read), (u.output, output)] ++ request)
      s).request.drop 2) := by
  obtain ⟨hk, hret⟩ := hplain.query (L := L)
    ([(.action, L.action .read), (u.output, output)] ++ request) s
  have hkeys : (index.query L
      ([(.action, L.action .read), (u.output, output)] ++ request) s).request.keys
      = [.action, u.output] ++ request.keys := hk
  have hfront : Key.ret ∉ [.action, u.output] := by
    simpa using hu.symm
  refine ⟨Request.keys_drop hkeys, fun x hx => ?_⟩
  obtain ⟨y, hy⟩ := hret x (by rw [Request.find_append_of_notMem hfront]; exact hx)
  exact ⟨y, (Request.find_drop hkeys hfront).trans hy⟩

theorem Delivers.lookup (h : Delivers L V child) (hidx : Succeeds index)
    {u : LookupUserdata} (hu : u.output ≠ .ret) :
    Delivers L V (lookupQuery L u index child) := by
  refine Delivers.query_hash (fun request s => ?_) _
  unfold lookupHandler
  split_ifs with hquery
  · split
    · exact leaves_fail _
    · next output _ =>
        dsimp only
        rw [if_pos (hidx.query _ _).1]
        have hfront : Key.ret ∉ Request.keys [(u.output, ((index.query L
            ([(.action, L.action .read), (u.output, output)] ++ request) s).request.find
            u.output).getD L.void)] := by
          simpa [Request.keys] using hu.symm
        exact ((h.pass.withFront hfront _ _).before
          (lookup_usable hidx.plain hu output request s) (query_events index)).orExist
  · exact (h.pass request s).orExist

theorem Delivers.fill (h : Delivers L V child) (hidx : Succeeds index)
    (u : FillUserdata) : Delivers L V (fillQuery L u index child) := by
  refine Delivers.query_hash (fun request s => ?_) _
  unfold fillHandler
  split_ifs with hbefore
  · dsimp only
    rw [hidx.fill u]
    exact ((h.pass request s).afterwards (fillUpdate_keeps hidx u _ _)
      (fillUpdate_events u index _ _)).orExist
  · dsimp only
    rw [hidx.fill u]
    exact ((h.pass _ _).before (fillUpdate_keeps hidx u request s).usable
      (fillUpdate_events u index request s)).orExist

/-- The backend of a rule is queried, not passed to: its 0 is the handler's. -/
theorem Delivers.switch (h : Delivers L delivered child) (rules : List (SwitchRule D))
    {backends : Nat → Sem D W}
    (hrules : ∀ k, Delivers L (fun way _ _ => Lossy way) (backends k)) :
    Delivers L delivered (switchQuery L rules backends child) := by
  intro request s
  show Leaves L 0 delivered request s
    (Chain.override L (switchHandler L rules backends (backendPass [child]) request s))
  unfold switchHandler
  split
  · exact (h.pass request s).orExist.override
  · split
    · exact (hrules _ request s).override_zero
    · refine Leaves.override ?_
      dsimp only
      split_ifs with hzero
      · exact (h.pass request s).recode fun h0 => absurd h0 hzero
      · exact (h.pass request s).recode fun _ => rfl

theorem Delivers.balancerLoop (h : Delivers L V child) (u : BalancerUserdata) :
    ∀ n k request s,
    Leaves L (-EEXIST) V request s (balancerLoop u [child] (n + 1) k request s) := by
  intro n
  induction n with
  | zero =>
      intro k request s
      rw [Chain.balancerLoop, getD_one]
      exact (h request s).andReturn (-EEXIST)
  | succ n ih =>
      intro k request s
      rw [Chain.balancerLoop, getD_one]
      exact (h request s).andThen (ih (k + 1))

theorem BalancerUserdata.rounds_pos (u : BalancerUserdata) : 0 < u.rounds := by
  unfold BalancerUserdata.rounds
  split_ifs with hzero
  · decide
  · exact Nat.pos_of_ne_zero fun h => hzero (UInt64.toNat_inj.mp h)

theorem Delivers.balancer (h : Delivers L V child) (u : BalancerUserdata) :
    Delivers L V (balancerQuery L u child) := by
  refine h.pass.query_crwd fun a func hfunc => ?_
  rw [balancer_func hfunc, ← Nat.succ_pred_eq_of_pos u.rounds_pos]
  exact h.balancerLoop u _ _

theorem Delivers.splitLoop (h : Delivers L V child) {u : SplitUserdata D}
    (hu : u.input ≠ .ret) (input : D) :
    ∀ cuts start, Delivers L V (splitLoop L u input child start cuts) := by
  have hfront : ∀ d : D, Key.ret ∉ Request.keys [(u.input, d)] := by
    intro d
    simpa [Request.keys] using hu.symm
  intro cuts
  induction cuts with
  | nil => exact fun _ request s => (h.withFront (hfront _) request s).andReturn 0
  | cons cut cuts ih => exact fun _ request s =>
      (h.withFront (hfront _) request s).andThen (ih cut)

/-- The handler returns 0 itself when the last slice has been passed. -/
theorem Delivers.split (h : Delivers L (fun way _ _ => Lossy way) child)
    {u : SplitUserdata D} (hu : u.input ≠ .ret) :
    Delivers L delivered (splitQuery L u child) := by
  intro request s
  refine Leaves.override_zero ?_
  unfold splitHandler
  split
  · exact leaves_fail _
  · exact h.pass.splitLoop hu _ _ _ request s

/-- Without a script the handler returns the 0 of `backend_pass`. -/
theorem Delivers.rewriteNone (h : Delivers L (fun way _ _ => Lossy way) child) :
    Delivers L delivered (rewriteQuery L none child) :=
  fun request s => (h.pass request s).override_zero

end Classes

/-! ## Scripts -/

/-- A script that leaves HK(ret) to `backend_query`. -/
def Script.Plain : Script D W → Prop
  | .set key _ next | .update key _ next => key ≠ .ret ∧ next.Plain
  | .pass next => ∀ ret request, (next ret request).Plain
  | .query backend next => backend.Plain ∧ ∀ ret request, (next ret request).Plain
  | .exit _ | .last => True

section Scripts

variable {L : DataLayer D} {V : Trace} {child : Sem D W} {request request' : Request D}

theorem Usable.append (h : Usable L request request') {front : Request D}
    (hfront : .ret ∉ front.keys) :
    Usable L (front ++ request) (front ++ request') := by
  refine ⟨?_, fun x hx => ?_⟩
  · simp only [Request.keys, List.map_append]
    exact congrArg _ h.keys
  · rw [Request.find_append_of_notMem hfront] at hx ⊢
    exact h.ret x hx

/-- By induction on the script.  `front` is what its `set` statements
have put in front. -/
theorem rewriteFuncAblock_leaves {pass : Sem D W} (h : Delivers L V pass) :
    ∀ {script : Script D W},
    script.Plain → ∀ request s, ∃ front : Request D, .ret ∉ front.keys ∧
      Leaves L (-EEXIST) V (front ++ request) s
        (rewriteFuncAblock L pass script request s) := by
  intro script
  induction script with
  | set key value next ih =>
      intro hplain request s
      obtain ⟨front, hfront, hleaves⟩ := ih hplain.2 ((key, value) :: request) s
      refine ⟨front ++ [(key, value)], ?_, by rw [List.append_assoc]; exact hleaves⟩
      simp only [Request.keys, List.map_append, List.mem_append, not_or] at hfront ⊢
      exact ⟨hfront, by simpa using hplain.1.symm⟩
  | update key value next ih =>
      intro hplain request s
      obtain ⟨front, hfront, hleaves⟩ := ih hplain.2 (request.modify key fun _ => value) s
      have hkeep := (Keeps.refl request).modify hplain.1 fun _ => value
      exact ⟨front, hfront, hleaves.before (hkeep.usable.append hfront) rfl⟩
  | pass next ih =>
      intro hplain request s
      obtain ⟨front, hfront, hleaves⟩ := ih (rewritePass (pass request s).ret)
        (pass request s).request
        (hplain _ _) (pass request s).request (pass request s).state
      exact ⟨front, hfront, (h request s).trans hleaves hfront⟩
  | query backend next ih =>
      intro hplain request s
      obtain ⟨front, hfront, hleaves⟩ := ih (backend.query L request s).ret
        (backend.query L request s).request (hplain.2 _ _)
        (backend.query L request s).request (backend.query L request s).state
      exact ⟨front, hfront, hleaves.before ((hplain.1.query request s).append hfront)
        (query_events backend)⟩
  | exit ret => exact fun _ request s => ⟨[], List.not_mem_nil, leaves_fail ret⟩
  | last =>
      exact fun _ request s =>
        ⟨[], List.not_mem_nil, (h request s).recode fun _ => rewritePass_eq _⟩

theorem Delivers.rewrite (h : Delivers L V child) {script : Request D → Script D W}
    (hplain : ∀ request, (script request).Plain) :
    Delivers L V (rewriteQuery L (some script) child) := by
  refine Delivers.query_hash (fun request s => ?_) _
  obtain ⟨front, hfront, hleaves⟩ :=
    rewriteFuncAblock_leaves h.pass (hplain request) request s
  have hlen : (rewriteFuncAblock L (backendPass [child]) (script request) request
      s).request.length = front.length + request.length := by
    have := congrArg List.length hleaves.keys
    simpa [Request.keys] using this
  unfold rewriteFunc
  dsimp only
  rw [hlen, Nat.add_sub_cancel]
  exact hleaves.dropFront hfront

end Scripts

/-! ## Whole chains -/

/-- No backend of the chain has HK(ret) among its own keys, and indexes answer success. -/
def Backend.Plain : Backend D W → Prop
  | .leaf handler => handler.Plain
  | .list child | .balancer _ child => child.Plain
  | .incapsulate u child => u.Plain ∧ child.Plain
  | .lookup u index child => (Succeeds index ∧ u.output ≠ .ret) ∧ child.Plain
  | .fill _ index child => Succeeds index ∧ child.Plain
  | .switch _ backends child => (∀ k, (backends k).Plain) ∧ child.Plain
  | .rewrite script child => (∀ f ∈ script, ∀ request, (f request).Plain) ∧ child.Plain
  | .split u child => u.input ≠ .ret ∧ child.Plain

section Chains

variable {L : DataLayer D}

/-- By induction on the chain, one class at a time. -/
theorem Backend.delivers :
    ∀ {b : Backend D W}, b.Plain → Delivers L delivered (b.query L) := by
  have hkept : ∀ {q : Sem D W} {c : Class}, Delivers L delivered q → ¬ Lossy [.via c] →
      Delivers L delivered (via c q) := fun h => h.viaKept
  intro b
  induction b with
  | leaf handler => exact fun hp => Delivers.leaf hp
  | list child ih => exact fun hp => (hkept (ih hp) (by simp [Lossy])).list
  | incapsulate u child ih => exact fun hp =>
      (hkept (ih hp.2) (by simp [Lossy])).incapsulate hp.1
  | lookup u index child ih =>
      exact fun hp => (hkept (ih hp.2) (by simp [Lossy])).lookup hp.1.1 hp.1.2
  | fill u index child ih => exact fun hp =>
      (hkept (ih hp.2) (by simp [Lossy])).fill hp.1 u
  | switch rules backends child ihr ih =>
      exact fun hp => (hkept (ih hp.2) (by simp [Lossy])).switch rules
        fun k => (ihr k (hp.1 k)).viaLossy (by simp [Lossy])
  | balancer u child ih => exact fun hp => (hkept (ih hp) (by simp [Lossy])).balancer u
  | rewrite script child ih =>
      intro hp
      cases script with
      | none => exact ((ih hp.2).viaLossy (by simp [Lossy])).rewriteNone
      | some script => exact (hkept (ih hp.2) (by simp [Lossy])).rewrite (hp.1 script rfl)
  | split u child ih => exact fun hp => ((ih hp.2).viaLossy (by simp [Lossy])).split hp.1

/-- **The leaf's code.**  In every run of every chain in which the leaf answers `r` and
from there on the run is on its way back, no backend failing by itself, the caller finds
`r` under HK(ret) if and only if `r` is 0 or the way back leads neither through
data/split nor through a rule's backend of request/switch, nor through a request/rewrite
without a script. -/
theorem result_survives_iff (L : DataLayer D) {b : Backend D W} (hplain : b.Plain)
    (request : Request D) (w : W) {x r : Int} (hitem : request.find .ret = some (L.ret x))
    (hssize : Int.bmod r (2 ^ 64) = r) (hstored : r ≠ -EBADF ∧ r ≠ -EEXIST)
    {before after : List Event} (hback : ∀ e ∈ after, ∃ c, e = .via c)
    (hrun : (b.query L request ⟨w, []⟩).state.events = before ++ .answer r :: after) :
    (b.query L request ⟨w, []⟩).request.find .ret = some (L.ret r) ↔
      r = 0 ∨ (.via .split ∉ after ∧ .via .switchRule ∉ after ∧
        .via .rewriteNone ∉ after) := by
  obtain ⟨-, new, hnew, -, hdeliver⟩ := Backend.delivers hplain request ⟨w, []⟩ (L := L)
  obtain ⟨y, hy, hval⟩ := hdeliver x hitem
  rw [hnew, List.nil_append] at hrun
  obtain ⟨-, hlossy, hkept⟩ := hval before r after hrun hback hstored
  have hway : (.via .split ∉ after ∧ .via .switchRule ∉ after ∧
      .via .rewriteNone ∉ after) ↔ ¬ Lossy after := by
    simp only [Lossy, not_or]
  rw [hy, hway]
  by_cases hlost : Lossy after
  · rw [hlossy hlost]
    constructor
    · intro heq
      -- both numbers can be read back
      have hread := congrArg L.getRet (Option.some_inj.mp heq)
      rw [L.getRet_ret 0 (by decide), L.getRet_ret r hssize] at hread
      exact .inl (Option.some_inj.mp hread).symm
    · rintro (rfl | hclear)
      · rfl
      · exact absurd hlost hclear
  · rw [hkept hlost]
    exact ⟨fun _ => .inr hlost, fun _ => congrArg (some ∘ L.ret) hssize⟩

end Chains

/-- A switch that sends a request with an insert to the leaf, and others to data/list. -/
def insertsToLeaf : Backend (Option Int) Unit :=
  .switch [⟨some [(.insert, some 1)], some 0⟩] (fun _ => .leaf (answering 5))
    (.list (.leaf (answering 5)))

/-- For a request that the switch passes on the answer 5 comes back. -/
theorem result_survives_list : Request.find .ret (insertsToLeaf.query numbers
    [(.action, some 19), (.ret, some 7)] ⟨(), []⟩).request = some (some 5) := by
  have hplain : insertsToLeaf.Plain :=
    ⟨fun _ _ _ item hitem => (List.not_mem_nil hitem).elim,
      fun _ _ item hitem => (List.not_mem_nil hitem).elim⟩
  have hrun : (insertsToLeaf.query numbers [(.action, some 19), (.ret, some 7)]
      ⟨(), []⟩).state.events = [] ++ .answer 5 :: [.via .list, .via .switch] := by
    decide
  exact (result_survives_iff numbers hplain _ () (x := 7) rfl (by decide) (by decide)
    (by simp) hrun).mpr (.inr (by decide))

/-- Through data/split with one slice, and for a request that a rule sends to the leaf,
the caller finds 0. -/
theorem result_lost :
    let split := (Backend.split ⟨.buffer, fun _ => []⟩ (.leaf (answering 5))).query
      numbers [(.buffer, some 1), (.ret, some 7)] ⟨(), []⟩
    let rule := insertsToLeaf.query numbers [(.insert, some 1), (.ret, some 7)] ⟨(), []⟩
    (split.state.events = [.answer 5, .via .split] ∧
        split.request.find .ret = some (some 0)) ∧
      (rule.state.events = [.answer 5, .via .switchRule] ∧
        rule.request.find .ret = some (some 0)) := by
  decide

end Frozen.Chain
