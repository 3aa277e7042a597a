/-
# `Frozen.Graph.Text` — the graph that a configuration text writes

A configuration is a text; `configs_string_parse` makes an array of it, with the items
in front of each other, and `backend_new` runs through the array and puts each backend
in front of the one before it.  So the text reads from the top to the bottom:

    { class = 'a' }, { name = 'b' }, NULL, { class = 'c' }

is a new backend of the class `a` with the backend `b` below it, and a new backend of
the class `c` by itself; what is written first is returned.

`row` is this reading of a text, from its end to its start: a name means a backend
that was there, or one that is written further down.  `new_text` says that the
graph is made so for every text the parser accepts, and that nothing is returned
where the reading fails.
-/
import Frozen.Graph.New
import Frozen.Graph.Splice
import Frozen.Config.Switch

namespace Frozen.Graph

open Lib Binary
open Config (Items Item configsStringParse ofTextual)

/-! ## The array of the parser -/

section

variable {τ : Type}

theorem regular_zero :
    (0 : UInt64) ≠ hashPtrNull ∧ (0 : UInt64) ≠ hashPtrEnd ∧
      (0 : UInt64) ≠ hashPtrInline := by
  decide

/-- The key of an item; the parser makes no mark of a name (`regular_of_mem`). -/
def keyOf (key : UInt64) : Key :=
  if h : key ≠ hashPtrNull ∧ key ≠ hashPtrEnd ∧ key ≠ hashPtrInline then ⟨key, h⟩
  else ⟨0, regular_zero⟩

/-- The array that the parser made, as `hash_iter` runs through it. -/
def hashOf : Items τ → Hash (ItemData (Items τ))
  | .done => .stop
  | .null rest => .null (hashOf rest)
  | .string key _ rest => .item (keyOf key) .other (hashOf rest)
  | .hash key sub rest => .item (keyOf key) (.hash sub) (hashOf rest)
  | .action key _ rest => .item (keyOf key) .other (hashOf rest)
  | .typed key _ rest => .item (keyOf key) .other (hashOf rest)

/-- An item of a text, as the callback sees it. -/
def entryOf : Item τ → Entry (ItemData (Items τ))
  | .null => .null
  | .item key (.hash sub) => .item (keyOf key) (.hash sub)
  | .item key _ => .item (keyOf key) .other

theorem entries_cons (it : Item τ) (c : Items τ) :
    (hashOf (it.cons c)).entries nullFlags = entryOf it :: (hashOf c).entries
      nullFlags := by
  cases it with
  | null => rfl
  | item key data => cases data <;> rfl

/-- The callback sees the items from the last to the first. -/
theorem entries_ofTextual (its : List (Item τ)) :
    (hashOf (ofTextual its)).entries nullFlags = its.reverse.map entryOf := by
  have hfold : ∀ (its : List (Item τ)) (c : Items τ),
      (hashOf (its.foldl (fun c it => it.cons c) c)).entries nullFlags =
        its.reverse.map entryOf ++ (hashOf c).entries nullFlags := by
    intro its
    induction its with
    | nil => exact fun c => rfl
    | cons it its ih =>
        intro c
        rw [List.foldl_cons, ih, entries_cons, List.reverse_cons, List.map_append,
          List.append_assoc]
        rfl
  exact (hfold its .done).trans (List.append_nil _)

/-- The parser gives an item no mark for a key. -/
theorem regular_of_denotes {env : Config.Env τ} {u : Config.Node} {key : UInt64}
    {data : Config.Data τ} (h : Config.Denotes env u (.item key data)) :
    (keyOf key).id = key := by
  have hkey : key = 0 ∨ ∃ s, env.initKey s = some key := by
    obtain ⟨d, h⟩ := h
    cases u with
    | null => cases (Config.push_eq_some.mp h).2
    | item label v =>
        obtain ⟨k, hlabel, hv⟩ := Option.bind_eq_some_iff.mp h
        obtain ⟨data', -, hitem⟩ := Option.map_eq_some_iff.mp hv
        cases hitem
        cases label with
        | unnamed =>
            simp only [Config.Label.denote] at hlabel
            split at hlabel
            · cases hlabel
            · cases (Config.push_eq_some.mp hlabel).2
              exact .inl rfl
        | null =>
            cases (Config.push_eq_some.mp hlabel).2
            exact .inl rfl
        | named s =>
            obtain ⟨k, hk, hne⟩ :=
              Option.bind_eq_some_iff.mp (Config.push_eq_some.mp hlabel).2
            split at hne
            · cases hne
            · cases hne
              exact .inr ⟨s, hk⟩
  have hregular : key ≠ hashPtrNull ∧ key ≠ hashPtrEnd ∧ key ≠ hashPtrInline := by
    rcases hkey with rfl | ⟨s, hs⟩
    · exact regular_zero
    · exact env.regular s key hs
  rw [keyOf, dif_pos hregular]

theorem regular_of_mem {env : Config.Env τ} {us : List Config.Node} {its : List (Item τ)}
    (h : List.Forall₂ (Config.Denotes env) us its) {key : UInt64} {data : Config.Data τ}
    (hmem : .item key data ∈ its) : (keyOf key).id = key := by
  induction h with
  | nil => cases hmem
  | cons hfirst _ ih =>
      rcases List.mem_cons.mp hmem with rfl | hmem
      · exact regular_of_denotes hfirst
      · exact ih hmem

end

/-! ## What a text means -/

section

variable {κ : Type}

/-- What a backend is, its links apart: the class, the name and the configuration. -/
def State.contents (s : State κ) (a : Nat) : Option (Class × Option String × Option κ) :=
  (s.heap a).map fun x => (x.cls, x.name, x.config)

/-- A text from some item on: the address of the next backend, the names, what the
backends are, and the backend of each item, or nothing for `NULL`. -/
structure Row (κ : Type) where
  next : Nat
  names : Slots Nat
  contents : Nat → Option (Class × Option String × Option κ)
  places : List (Option Nat)

namespace Row

def start (s : State κ) : Row κ := ⟨s.next, s.names, s.contents, []⟩

def nameOf (r : Row κ) (b : Nat) : Option String := (r.contents b).bind fun x => x.2.1

def place (r : Row κ) (p : Option Nat) : Row κ := { r with places := p :: r.places }

/-- A new backend in front. -/
def make (r : Row κ) (cls : Class) (name : Option String) (config : Option κ) :
    Row κ where
  next := r.next + 1
  names := if name.isSome then r.names.add (some r.next) else r.names
  contents := Function.update r.contents r.next (some (cls, name, config))
  places := some r.next :: r.places

/-- One more item in front; nothing if the item fails. -/
def put {τ : Type} (env : Env (Items τ)) (r : Row (Items τ)) :
    Item τ → Option (Row (Items τ))
  | .null => some (r.place none)
  | .item _ (.hash config) =>
      match env.string config "class", env.string config "name" with
      | none, none => none
      | none, some name => (firstNamed r.names r.nameOf name).map fun b =>
          r.place (some b)
      | some cls, name =>
          match env.classFind cls with
          | none => none
          | some cls =>
              if (env.copy config).isSome ∧ newFails env cls r.next = false then
                some (r.make cls name (env.copy config))
              else none
  | .item _ _ => some r

end Row

/-- **The reading of a text**, from its end to its start. -/
def row {τ : Type} (env : Env (Items τ)) (s : State (Items τ)) :
    List (Item τ) → Option (Row (Items τ))
  | [] => some (.start s)
  | it :: its => (row env s its).bind fun r => r.put env it

/-- The links from parent to child: from each backend to the one that is
written behind it. -/
def links : List (Option Nat) → List (Nat × Nat)
  | some a :: some b :: ps => (a, b) :: links (some b :: ps)
  | _ :: ps => links ps
  | [] => []

/-- The graph `t` is `s` with the backends and the links of a text. -/
structure Written (s : State κ) (r : Row κ) (t : State κ) : Prop where
  consistent : Consistent t
  tidy : Tidy t
  contents : t.contents = r.contents
  childs : ∀ a d, (t.childs a).count d = (s.childs a).count d +
    (links r.places).count (a, d)
  parents : ∀ a d, (t.parents a).count d = (s.parents a).count d +
    (links r.places).count (d, a)

end

/-! ## The reading is the plan -/

section

variable {κ τ : Type} {env : Env (Items τ)} {s : State (Items τ)}

/-- A plan that comes to what is read. -/
structure Plan.Reads (p : Plan) (r : Row (Items τ)) : Prop where
  next : p.next = r.next
  names : p.names = r.names
  nameOf : p.nameOf = r.nameOf
  prev : p.prev = r.places.head?.join
  links : p.links = Graph.links r.places

theorem Plan.reads_start : (Plan.start s).Reads (Row.start s) where
  next := rfl
  names := rfl
  nameOf := by
    funext b
    simp only [start, State.nameOf, Row.start, Row.nameOf, State.contents]
    cases s.heap b <;> rfl
  prev := rfl
  links := rfl

theorem links_some_cons (b : Nat) (ps : List (Option Nat)) :
    links (some b :: ps) = ps.head?.join.elim (links ps) fun c => (b, c) :: links ps := by
  cases ps with
  | nil => rfl
  | cons p ps => cases p <;> rfl

/-- A backend comes to the chain. -/
theorem Plan.Reads.join {p : Plan} {r : Row (Items τ)} (h : p.Reads r) (b : Nat) :
    (p.join b).Reads (r.place (some b)) where
  next := h.next
  names := h.names
  nameOf := h.nameOf
  prev := rfl
  links := by
    change _ = Graph.links (some b :: r.places)
    rw [links_some_cons, ← h.prev, ← h.links, Plan.join]
    cases p.prev <;> rfl

theorem Plan.Reads.make {p : Plan} {r : Row (Items τ)} (h : p.Reads r) (cls : Class)
    (name : Option String) (config : Option (Items τ)) :
    ((p.extend name).join p.next).Reads (r.make cls name config) where
  next := congrArg (· + 1) h.next
  names := by
    change (if name.isSome then p.names.add (some p.next) else p.names) = _
    rw [h.names, h.next]
    rfl
  nameOf := by
    change Function.update p.nameOf p.next name = _
    rw [h.nameOf, h.next]
    funext b
    by_cases hb : b = r.next
    · subst hb
      simp [Row.nameOf, Row.make]
    · simp [Row.nameOf, Row.make, hb]
  prev := congrArg some h.next
  links := by
    change _ = Graph.links (some r.next :: r.places)
    rw [links_some_cons, ← h.prev, ← h.links, ← h.next]
    simp only [Plan.join, Plan.extend]
    cases p.prev <;> rfl

variable (env) in
/-- One more item in front is one more of the plan. -/
theorem Plan.Reads.follow {p : Plan} {r : Row (Items τ)} (h : p.Reads r) (it : Item τ) :
    Option.Rel Reads (p.follow
      (ask env (firstNamed p.names p.nameOf) p.next (entryOf it))) (r.put env it) := by
  rw [h.names, h.nameOf, h.next]
  cases it with
  | null => exact .some { h with prev := rfl, links := h.links }
  | item key data =>
      cases data with
      | hash config =>
          simp only [Row.put, entryOf, ask]
          cases hcls : env.string config "class" with
          | none =>
              cases hname : env.string config "name" with
              | none => exact .none
              | some name =>
                  simp only
                  cases hcalled : firstNamed r.names r.nameOf name with
                  | none => exact .none
                  | some b => exact .some (h.join b)
          | some cls =>
              simp only
              cases hc : env.classFind cls with
              | none => exact .none
              | some c =>
                  by_cases hpass : (env.copy config).isSome ∧
                    newFails env c r.next = false
                  · simp only [if_pos hpass]
                    exact .some (h.make c _ _)
                  · simp only [if_neg hpass]
                    exact .none
      | string s => exact .some h
      | action a => exact .some h
      | typed v => exact .some h

/-! ## What the backends are -/

theorem State.contents_connect {b : Nat} {prev : Option Nat} {t u : State κ}
    (h : connect b prev t = .ok u) : u.contents = t.contents := by
  funext a
  cases prev with
  | none =>
      obtain ⟨x, -, h⟩ := ok_of_bind h
      cases h
      change ((t.addHole b).heap a).map _ = _
      rw [State.heap_addHole, Option.map_map]
      rfl
  | some c =>
      obtain ⟨-, -, rfl⟩ := connect_ok h
      rw [State.contents, State.heap_link, Option.map_map]
      rfl

theorem State.contents_make {t : State κ} {x : Backend κ} :
    (t.make x).contents = Function.update t.contents t.next
      (some (x.cls, x.name, x.config)) := by
  funext a
  unfold contents
  rw [State.heap_make]
  by_cases ha : a = t.next
  · rw [ha, State.heap_alloc_self, Function.update_self]
    rfl
  · rw [State.heap_alloc_of_ne ha, Function.update_of_ne ha]

/-- An item that passes has gone through `newItem`. -/
theorem newItem_of_newIterator {key : Key} {config : Items τ}
    {ctx ctx' : NewCtx (Items τ)}
    (h : newIterator env (.item key (.hash config)) ctx = .ok ctx') :
    newItem env (env.string config "name") (env.string config "class") config ctx
      = .ok (true, ctx') := by
  rw [newIterator] at h
  split at h <;> cases h
  assumption

/-- A backend that is referred to is what it was. -/
theorem newItem_contents_use {name : String} {config : Items τ}
    {ctx ctx' : NewCtx (Items τ)}
    (h : newItem env (some name) none config ctx = .ok (true, ctx')) :
    ctx'.state.contents = ctx.state.contents := by
  obtain ⟨found, -, h⟩ := ok_of_bind h
  cases found with
  | none => cases h
  | some b =>
      obtain ⟨u, hconnect, hu⟩ := ok_of_bind h
      cases hu
      exact State.contents_connect hconnect

theorem newItem_contents_make {name : Option String} {cls : String} {c : Class}
    {config : Items τ} {ctx ctx' : NewCtx (Items τ)} (hc : env.classFind cls = some c)
    (hcopy : (env.copy config).isSome)
    (h : newItem env name (some cls) config ctx = .ok (true, ctx')) :
    ctx'.state.contents =
      Function.update ctx.state.contents ctx.state.next
        (some (c, name, env.copy config)) := by
  simp only [newItem, newSkeleton_some hc hcopy] at h
  obtain ⟨made, hmade, h⟩ := ok_of_bind h
  cases hmade
  obtain ⟨u, hconnect, h⟩ := ok_of_bind h
  obtain ⟨x, -, h⟩ := ok_of_bind h
  split at h
  · obtain ⟨v, -, h⟩ := ok_of_bind h
    obtain ⟨w, -, h⟩ := ok_of_bind h
    cases h
  · cases h
    exact (State.contents_connect hconnect).trans State.contents_make

/-- An item that passes adds its backend, if it has a class. -/
theorem newIterator_contents {r r' : Row (Items τ)} {it : Item τ}
    {ctx ctx' : NewCtx (Items τ)} (hnext : ctx.state.next = r.next)
    (hcontents : ctx.state.contents = r.contents) (hput : r.put env it = some r')
    (hrun : newIterator env (entryOf it) ctx = .ok ctx') :
    ctx'.state.contents = r'.contents := by
  cases it with
  | null =>
      cases hput
      cases hrun
      exact hcontents
  | item key data =>
      cases data with
      | hash config =>
          have hitem := newItem_of_newIterator hrun
          simp only [Row.put] at hput
          cases hcls : env.string config "class" with
          | none =>
              cases hname : env.string config "name" with
              | none =>
                  rw [hcls, hname] at hput
                  cases hput
              | some name =>
                  rw [hcls, hname] at hitem
                  simp only [hcls, hname] at hput
                  obtain ⟨b, -, rfl⟩ := Option.map_eq_some_iff.mp hput
                  exact (newItem_contents_use hitem).trans hcontents
          | some cls =>
              rw [hcls] at hitem
              simp only [hcls] at hput
              cases hc : env.classFind cls with
              | none =>
                  rw [hc] at hput
                  cases hput
              | some c =>
                  simp only [hc] at hput
                  split at hput
                  · next hpass =>
                      cases hput
                      rw [newItem_contents_make hc hpass.1 hitem, hcontents, hnext]
                      rfl
                  · cases hput
      | string s =>
          cases hput
          cases hrun
          exact hcontents
      | action a =>
          cases hput
          cases hrun
          exact hcontents
      | typed v =>
          cases hput
          cases hrun
          exact hcontents

/-! ## The iteration reads the text -/

theorem iterate_concat (es : List (Entry (ItemData κ))) (e : Entry (ItemData κ))
    (env : Env κ) (ctx : NewCtx κ) :
    iterate env (es ++ [e]) ctx = iterate env es ctx >>= newIterator env e := by
  rw [iterate, List.foldlM_append]
  refine congrArg (_ >>= ·) (funext fun ctx => ?_)
  rw [List.foldlM_cons]
  exact bind_pure _

variable (env) in
/-- The iteration goes through exactly if the text can be read, and makes what is read. -/
theorem iterate_row (hs : Consistent s) (ht : Tidy s) (its : List (Item τ)) :
    (∀ r, row env s its = some r →
      ∃ p ctx, iterate env (its.reverse.map entryOf) ⟨s, [], none⟩ = .ok ctx ∧
      Tracks s p ctx ∧ p.Reads r ∧
        ctx.state.contents = r.contents) ∧
    (row env s its = none → ∃ ctx, iterate env (its.reverse.map entryOf) ⟨s, [], none⟩
      = .error (.broke ctx)) := by
  induction its with
  | nil =>
      refine ⟨fun r hr => ?_, fun hnone => by cases hnone⟩
      cases hr
      exact ⟨_, _, rfl, tracks_start hs ht, Plan.reads_start, rfl⟩
  | cons it its ih =>
      rw [List.reverse_cons, List.map_append, List.map_singleton, iterate_concat]
      cases hrow : row env s its with
      | none =>
          obtain ⟨ctx, hrun⟩ := ih.2 hrow
          rw [row, hrow, hrun]
          exact ⟨fun r hr => (nomatch hr), fun _ => ⟨ctx, rfl⟩⟩
      | some r =>
          obtain ⟨p, ctx, hrun, htracks, hreads, hcontents⟩ := ih.1 r hrow
          have hfollow := hreads.follow env it
          rw [row, hrow, hrun, Option.bind_some]
          constructor
          · intro r' hput
            rw [hput] at hfollow
            generalize hp : p.follow (ask env (firstNamed p.names p.nameOf) p.next
              (entryOf it)) = q at hfollow
            cases hfollow with
            | some hreads' =>
                obtain ⟨ctx', hstep, htracks'⟩ := htracks.step ht hp
                have hnext : ctx.state.next = r.next := htracks.next.trans hreads.next
                exact ⟨_, ctx', hstep, htracks', hreads',
                  newIterator_contents hnext hcontents hput hstep⟩
          · intro hput
            rw [hput] at hfollow
            generalize hp : p.follow (ask env (firstNamed p.names p.nameOf) p.next
              (entryOf it)) = q at hfollow
            cases hfollow
            obtain ⟨u, hfail, -⟩ := htracks.fail hp
            exact ⟨_, hfail⟩

/-- A construction that does not go through returns nothing. -/
theorem fst_of_broke {n : Nat} {config : Hash (ItemData κ)} {env : Env κ} {s : State κ}
    {ctx : NewCtx κ} {out : Option Nat × State κ}
    (hrun : iterate env (config.entries nullFlags) ⟨s, [], none⟩ = .error (.broke ctx))
    (h : new env n config s = .ok out) : out.1 = none := by
  rw [new_eq_iterate, hrun] at h
  obtain ⟨t, -, ht⟩ := ok_of_bind h
  cases ht
  rfl

/-- **A text that the parser accepts makes the graph that it writes**, and returns what
is written first; where it cannot be read nothing is returned. -/
theorem new_text {env : Config.Env τ} (lib : Env (Items τ)) (hs : Consistent s)
    (ht : Tidy s) {string : List UInt8} {c : Items τ}
    (hparse : Returns (fun n => configsStringParse env n string) (some c)) :
    ∃ top its, Config.Heads env (Config.lex (string.takeWhile (· ≠ 0))) top c ∧
      List.Forall₂ (Config.Denotes env) top.nodes its ∧ c = ofTextual its ∧
      (∀ key data, .item key data ∈ its → (keyOf key).id = key) ∧
      (∀ r, row lib s its = some r →
        ∃ t, Returns (fun n => new lib n (hashOf c) s) (r.places.head?.join, t) ∧
        Written s r t) ∧
      (row lib s its = none → ∀ n out, new lib n (hashOf c) s = .ok out →
        out.1 = none) := by
  obtain ⟨top, hheads⟩ :=
    Config.readItems_eq_some_iff.mp (Config.configsStringParse_eq_iff.mp hparse)
  obtain ⟨its, hits, rfl⟩ := Config.Tree.exists_items hheads.denote
  have hiter := iterate_row lib hs ht its
  rw [← entries_ofTextual] at hiter
  refine ⟨top, its, hheads, hits, rfl, fun key data => regular_of_mem hits,
    fun r hr => ?_, fun hnone n out hout => ?_⟩
  · obtain ⟨p, ctx, hrun, htracks, hreads, hcontents⟩ := hiter.1 r hr
    have hnew : ∀ n, new lib n (hashOf (ofTextual its)) s
        = .ok (r.places.head?.join, ctx.state) := by
      intro n
      rw [new_eq_iterate, hrun, ← hreads.prev, ← htracks.prev]
    refine ⟨ctx.state, .of_forall hnew, ?_⟩
    exact
      { consistent := htracks.consistent
        tidy := htracks.tidy
        contents := hcontents
        childs := fun a d => by rw [← hreads.links]; exact htracks.childs a d
        parents := fun a d => by rw [← hreads.links]; exact htracks.parents a d }
  · obtain ⟨ctx, hrun⟩ := hiter.2 hnone
    exact fst_of_broke hrun hout

end

def HK_class : UInt64 := 26

def HK_name : UInt64 := 87

/-- The keys of a backend. -/
def backendKeys : Config.Env Empty where
  initKey := fun s =>
    if s = [99, 108, 97, 115, 115] then some HK_class
    else if s = [110, 97, 109, 101] then some HK_name
    else some 0
  regular := by
    intro s key h
    split_ifs at h <;> cases h <;> decide
  strToAction := fun _ => none
  initData := fun _ _ => none
  convertData := fun _ _ => none

/-- Every class is there, and no callback fails. -/
def everyClass : Env (Items Empty) where
  string := fun config key =>
    match config.find (if key = "class" then HK_class else HK_name) with
    | some (.string s) => some (String.ofList (s.map fun b => Char.ofNat b.toNat))
    | _ => none
  copy := some
  classFind :=
    fun name => some { name := name, init := false, configure := false, fork := false }
  init := fun _ => 0
  configure := fun _ => 0
  fork := fun _ _ => 0

/-- `{class='a'},{name='c'},NULL,{class='b',name='c'}` -/
def sharedText : List UInt8 :=
  [123, 99, 108, 97, 115, 115, 61, 39, 97, 39, 125, 44,
   123, 110, 97, 109, 101, 61, 39, 99, 39, 125, 44,
   78, 85, 76, 76, 44,
   123, 99, 108, 97, 115, 115, 61, 39, 98, 39, 44, 110, 97, 109, 101, 61, 39, 99, 39, 125]

/-- Its items, the last one in front. -/
def sharedItems : Items Empty :=
  .hash 0 (.string HK_name [99] (.string HK_class [98] .done)) (.null
    (.hash 0 (.string HK_name [99] .done) (.hash 0 (.string HK_class [97] .done) .done)))

theorem new_text_shared :
    ∃ top its, Config.Heads backendKeys (Config.lex (sharedText.takeWhile (· ≠ 0))) top
      sharedItems ∧
      List.Forall₂ (Config.Denotes backendKeys) top.nodes its ∧
      sharedItems = ofTextual its ∧
      (∀ key data, .item key data ∈ its → (keyOf key).id = key) ∧
      (∀ r, row everyClass .empty its = some r →
        ∃ t, Returns (fun n => new everyClass n (hashOf sharedItems) .empty)
          (r.places.head?.join, t) ∧ Written .empty r t) ∧
      (row everyClass .empty its = none →
        ∀ n out, new everyClass n (hashOf sharedItems) .empty = .ok out → out.1 = none) :=
  new_text everyClass consistent_empty tidy_empty
    (Config.configsStringParse_eq_iff.mpr rfl)

/-- The name is the backend that is written further down. -/
example : (row everyClass .empty
    [.item 0 (.hash (.string HK_class [97] .done)),
      .item 0 (.hash (.string HK_name [99] .done)), .null,
      .item 0 (.hash (.string HK_name [99] (.string HK_class [98] .done)))]).map
        Row.places =
    some [some 1, some 0, none, some 0] := rfl

end Frozen.Graph
