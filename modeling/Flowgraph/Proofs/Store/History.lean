import Flowgraph.Proofs.Store.Keeping
import Flowgraph.Proofs.Store.Undo
import Mathlib.Data.Int.Range
/-!
# The history of a store

A store is opened empty or with a graph; then elements are created, deleted and tagged, graphs are imported, and clients write
through journals that they undo. Kept in tables, a store goes through the same history (`Desk.step_eq`), so its tables stay in
step, no request finds an entry missing, and a request that is refused changes nothing. Identities are handed out in order
(`Desk.run_eq`), so none is handed out twice (`Desk.tables_stay_in_step`).
-/

namespace Flowgraph

/-! ## Actions -/

/-- What is asked of a store: directly, or by a client through its journal. -/
inductive Action (ι : Type) where
  | createNode (draft : NodeDraft) (tags : TagSet)
  | createEdge (src dst : Int) (draft : EdgeDraft)
  | delete (el : ElementRef)
  | tag (el : ElementRef) (t : String)
  | untag (el : ElementRef) (t : String)
  | importGraph (g : Graph)
  | request (client : ι) (r : Request)

/-- The store after an answer. A refusal changes nothing. -/
def Store.after {α : Type} (s : Store) : Except Fault (α × Store) → Store
  | .ok (_, s') => s'
  | .error _ => s

/-- The store that holds nothing, or a graph. -/
def Store.opened : Option Graph → Store
  | none => .empty
  | some g => .ofGraph g

/-- Identities that are handed out. -/
structure Issued where
  nodes : List Int := []
  edges : List Int := []

/-- A request to the journal of a client, with the store in tables. -/
def Request.enact (j : Journal) : Request → Keeping (Journal × Issued)
  | createNode draft tags => do
    let n ← Keeping.createNode draft tags
    return ({ j with nodes := j.nodes ++ [n] }, { nodes := [n.id] })
  | createEdge src dst draft => do
    let e ← Keeping.createEdge src dst draft
    return ({ j with edges := j.edges ++ [e] }, { edges := [e.id] })
  | tag el t => do
    let added ← Keeping.tag el t
    return (if added then { j with tags := j.tags ++ [(el, t)] } else j, {})
  | undo =>
    if j.undone then return (j, {})
    else do
      Keeping.takeBack j
      return ({ j with undone := true }, {})

section

variable {ι : Type} [DecidableEq ι]

/-- An action, with the store in tables. -/
def Action.enact (journals : ι → Journal) : Action ι → Keeping ((ι → Journal) × Issued)
  | createNode draft tags => do
    let n ← Keeping.createNode draft tags
    return (journals, { nodes := [n.id] })
  | createEdge src dst draft => do
    let e ← Keeping.createEdge src dst draft
    return (journals, { edges := [e.id] })
  | delete el => do
    Keeping.delete el
    return (journals, {})
  | tag el t => do
    let _ ← Keeping.tag el t
    return (journals, {})
  | untag el t => do
    let _ ← Keeping.untag el t
    return (journals, {})
  | importGraph g => do
    let h ← Keeping.importGraph g
    return (journals, { nodes := h.nodeIds, edges := h.edges.map Edge.id })
  | request k r => do
    let (j, issued) ← r.enact (journals k)
    return (Function.update journals k j, issued)

/-- The store and the journals after an action. One that is refused changes nothing. -/
def Shared.act (w : Shared ι) : Action ι → Shared ι
  | .createNode draft tags => { w with store := (w.store.createNode draft tags).2 }
  | .createEdge src dst draft => { w with store := w.store.after (w.store.createEdge src dst draft) }
  | .delete el => { w with store := w.store.after ((fun s => ((), s)) <$> w.store.delete el) }
  | .tag el t => { w with store := w.store.after (w.store.tag el t) }
  | .untag el t => { w with store := w.store.after (w.store.untag el t) }
  | .importGraph g => { w with store := w.store.importGraph g }
  | .request k r => w.step (k, r)

/-- A store in tables, with the journals of its clients. -/
structure Desk (ι : Type) where
  journals : ι → Journal
  tables : Tables

namespace Desk

/-- The tables that hold nothing, or a graph. -/
def opened : Option Graph → Desk ι
  | none => ⟨fun _ => {}, {}⟩
  | some g => ⟨fun _ => {}, .ofGraph g⟩

/-- The answer to an action, and what comes after it. -/
def step (d : Desk ι) (a : Action ι) : Except Lapse Issued × Desk ι :=
  match (a.enact d.journals).run d.tables with
  | (.ok (journals, issued), t) => (.ok issued, ⟨journals, t⟩)
  | (.error lapse, t) => (.error lapse, ⟨d.journals, t⟩)

/-- The answers to actions, and what comes after them. -/
def run (d : Desk ι) : List (Action ι) → List (Except Lapse Issued) × Desk ι
  | [] => ([], d)
  | a :: actions =>
    let (answer, d₁) := d.step a
    let (answers, d₂) := d₁.run actions
    (answer :: answers, d₂)

end Desk

/-- The desk of a store and its clients. -/
def Shared.desk (w : Shared ι) : Desk ι := ⟨w.journals, w.store.tables⟩

end

/-! ## Identities -/

/-- The identities that are handed out come in order, each from the counter. -/
structure Issued.Between (issued : Issued) (s s' : Store) : Prop where
  nodes : issued.nodes = Int.range s.nextNode s'.nextNode
  edges : issued.edges = Int.range s.nextEdge s'.nextEdge
  nodes_le : s.nextNode ≤ s'.nextNode
  edges_le : s.nextEdge ≤ s'.nextEdge

theorem range_add (i : Int) (n : Nat) : Int.range i (i + n) = (List.range n).map fun (k : Nat) => i + k := by
  rw [Int.range, show (i + n - i).toNat = n by omega]

theorem range_self (i : Int) : Int.range i i = [] := by simpa using range_add i 0

theorem range_succ (i : Int) : Int.range i (i + 1) = [i] := by simpa using range_add i 1

theorem range_append {i j k : Int} (hij : i ≤ j) (hjk : j ≤ k) : Int.range i j ++ Int.range j k = Int.range i k := by
  obtain ⟨m, rfl⟩ := Int.le.dest hij
  obtain ⟨n, rfl⟩ := Int.le.dest hjk
  rw [range_add, range_add, show i + m + n = i + ((m + n : Nat) : Int) by omega, range_add, List.range_add,
    List.map_append, List.map_map]
  refine congrArg _ (List.map_congr_left fun l _ => ?_)
  simp only [Function.comp_apply]
  omega

theorem nodup_range (i j : Int) : (Int.range i j).Nodup := by
  refine List.nodup_range.map fun a b hab => ?_
  have : i + (a : Int) = i + (b : Int) := hab
  omega

theorem Store.counters_changeTags (s : Store) (f : TagSet → TagSet) (el : ElementRef) :
    (s.changeTags f el).nextNode = s.nextNode ∧ (s.changeTags f el).nextEdge = s.nextEdge := by
  cases el with
  | node ref => exact ⟨rfl, rfl⟩
  | edge i => exact ⟨rfl, rfl⟩

theorem Issued.Between.none {s s' : Store} (hnode : s'.nextNode = s.nextNode) (hedge : s'.nextEdge = s.nextEdge) :
    Issued.Between {} s s' := by
  refine ⟨?_, ?_, by omega, by omega⟩
  · rw [hnode, range_self]
  · rw [hedge, range_self]

theorem Issued.Between.append {s s₁ s' : Store} {issued issued' : Issued} (h : issued.Between s s₁)
    (h' : issued'.Between s₁ s') :
    Issued.Between { nodes := issued.nodes ++ issued'.nodes, edges := issued.edges ++ issued'.edges } s s' where
  nodes := by rw [h.nodes, h'.nodes, range_append h.nodes_le h'.nodes_le]
  edges := by rw [h.edges, h'.edges, range_append h.edges_le h'.edges_le]
  nodes_le := h.nodes_le.trans h'.nodes_le
  edges_le := h.edges_le.trans h'.edges_le

theorem Issued.Between.createNode (s : Store) (draft : NodeDraft) (tags : TagSet) :
    Issued.Between { nodes := [(s.createNode draft tags).1.id] } s (s.createNode draft tags).2 :=
  ⟨(range_succ s.nextNode).symm, (range_self _).symm, Int.le_add_one (Int.le_refl _), Int.le_refl _⟩

theorem Issued.Between.createEdge {s s' : Store} {src dst : Int} {draft : EdgeDraft} {e : Edge}
    (h : s.createEdge src dst draft = .ok (e, s')) : Issued.Between { edges := [e.id] } s s' := by
  obtain ⟨rfl, -, -, hnode, hedge⟩ := Store.createEdge_eq_ok h
  refine ⟨?_, ?_, by omega, by omega⟩
  · rw [hnode, range_self]
  · rw [hedge, range_succ]
    rfl

theorem Issued.Between.tag {s s' : Store} {el : ElementRef} {t : String} {added : Bool}
    (h : s.tag el t = .ok (added, s')) : Issued.Between {} s s' := by
  obtain ⟨tags, -, ⟨-, -, rfl⟩ | ⟨-, -, rfl⟩⟩ := Store.tag_eq_ok h
  · exact .none rfl rfl
  · exact .none (Store.counters_changeTags ..).1 (Store.counters_changeTags ..).2

theorem Issued.Between.untag {s s' : Store} {el : ElementRef} {t : String} {taken : Bool}
    (h : s.untag el t = .ok (taken, s')) : Issued.Between {} s s' := by
  obtain ⟨tags, -, h⟩ := bind_eq_ok_iff.1 h
  split at h
  · cases h
    exact .none (Store.counters_changeTags ..).1 (Store.counters_changeTags ..).2
  · cases h
    exact .none rfl rfl

theorem Issued.Between.delete {s s' : Store} {el : ElementRef} (h : s.delete el = .ok s') : Issued.Between {} s s' := by
  cases el with
  | node ref =>
    obtain ⟨n, -, h⟩ := bind_eq_ok_iff.1 h
    cases h
    exact .none rfl rfl
  | edge i =>
    obtain ⟨e, -, h⟩ := bind_eq_ok_iff.1 h
    cases h
    exact .none rfl rfl

theorem Issued.Between.importGraph (s : Store) (g : Graph) :
    Issued.Between { nodes := (s.importCopy g).nodeIds, edges := (s.importCopy g).edges.map Edge.id } s
      (s.importGraph g) := by
  have hnode : (s.importGraph g).nextNode = s.nextNode + g.nodes.length := rfl
  have hedge : (s.importGraph g).nextEdge = s.nextEdge + g.edges.length := rfl
  refine ⟨?_, ?_, by omega, by omega⟩
  · show (g.copiedNodes s.nextNode).map Node.id = _
    rw [hnode, range_add, Keeping.copiedNodes_eq, List.range_eq_range', ← List.zipIdx_map_snd, List.map_map, List.map_map]
    rfl
  · show (g.copiedEdges s.nextNode s.nextEdge).map Edge.id = _
    rw [hedge, range_add, Graph.copiedEdges_ids]

theorem foldl_preserves {α β γ : Type} {f : β → γ} (step : β → α → β) (hstep : ∀ b a, f (step b a) = f b) (l : List α)
    (b : β) : f (l.foldl step b) = f b := by
  induction l generalizing b with
  | nil => rfl
  | cons a l ih => exact (ih _).trans (hstep b a)

theorem Journal.counters_revert (j : Journal) (s : Store) :
    (j.revert s).nextNode = s.nextNode ∧ (j.revert s).nextEdge = s.nextEdge := by
  let counters (s : Store) : Int × Int := (s.nextNode, s.nextEdge)
  have htags : ∀ (s : Store) (note : ElementRef × String),
      counters (s.changeTags (·.erase note.2) note.1) = counters s :=
    fun s note => Prod.ext (s.counters_changeTags _ _).1 (s.counters_changeTags _ _).2
  have hnodes := foldl_preserves (f := counters) (fun s (n : Node) => s.dropNode n.id) fun _ _ => rfl
  have hedges := foldl_preserves (f := counters) (fun s (e : Edge) => s.dropEdge e.id) fun _ _ => rfl
  have h : counters (j.revert s) = counters s :=
    (hnodes j.nodes.reverse _).trans ((hedges j.edges.reverse _).trans (foldl_preserves _ htags j.tags.reverse s))
  exact Prod.mk.inj h

/-! ## Steps -/

theorem Request.run_enact (r : Request) (j : Journal) (s : Store) :
    (∃ issued, (r.enact j).run s.tables = (.ok ((r.perform j s).1, issued), (r.perform j s).2.tables) ∧
      issued.Between s (r.perform j s).2) ∨
    ∃ fault, (r.enact j).run s.tables = (.error (.fault fault), s.tables) ∧ r.perform j s = (j, s) := by
  cases r with
  | createNode draft tags =>
    exact .inl ⟨_, Keeping.run_bind_ok (Keeping.run_createNode s draft tags), .createNode s draft tags⟩
  | createEdge src dst draft =>
    have hrun := Keeping.run_createEdge s src dst draft
    cases hcreated : s.createEdge src dst draft with
    | ok created =>
      rw [hcreated] at hrun
      have hperform : (createEdge src dst draft).perform j s = ({ j with edges := j.edges ++ [created.1] }, created.2) := by
        rw [perform, Journal.createEdge, hcreated]
        rfl
      rw [hperform]
      exact .inl ⟨_, Keeping.run_bind_ok hrun, .createEdge hcreated⟩
    | error fault =>
      rw [hcreated] at hrun
      refine .inr ⟨fault, Keeping.run_bind_error hrun, ?_⟩
      rw [perform, Journal.createEdge, hcreated]
      rfl
  | tag el t =>
    have hrun := Keeping.run_tag s el t
    cases htag : s.tag el t with
    | ok answer =>
      obtain ⟨added, s'⟩ := answer
      rw [htag] at hrun
      have hperform : (tag el t).perform j s = (if added then { j with tags := j.tags ++ [(el, t)] } else j, s') := by
        rw [perform, Journal.tag, htag]
        rfl
      rw [hperform]
      exact .inl ⟨{}, Keeping.run_bind_ok hrun, .tag htag⟩
    | error fault =>
      rw [htag] at hrun
      refine .inr ⟨fault, Keeping.run_bind_error hrun, ?_⟩
      rw [perform, Journal.tag, htag]
      rfl
  | undo =>
    left
    by_cases hundone : j.undone
    · have hperform : undo.perform j s = (j, s) := if_pos hundone
      have henact : undo.enact j = return (j, {}) := if_pos hundone
      rw [hperform, henact]
      exact ⟨{}, rfl, .none rfl rfl⟩
    · have hperform : undo.perform j s = ({ j with undone := true }, j.revert s) := if_neg hundone
      have henact : undo.enact j = do { Keeping.takeBack j; return ({ j with undone := true }, {}) } := if_neg hundone
      rw [hperform, henact]
      exact ⟨{}, Keeping.run_bind_ok (Keeping.run_takeBack s j), .none (j.counters_revert s).1 (j.counters_revert s).2⟩

/-- A request to the store itself, which writes to no journal. -/
theorem Keeping.run_direct {α : Type} {op : Keeping α} {s : Store} {answer : Except Fault (α × Store)} {issue : α → Issued}
    (hrun : op.run s.tables = s.outcome answer) (hissue : ∀ a s', answer = .ok (a, s') → (issue a).Between s s')
    {J : Type} (journals : J) :
    (∃ issued, (do let a ← op; return (journals, issue a) : Keeping (J × Issued)).run s.tables =
        (.ok (journals, issued), (s.after answer).tables) ∧ issued.Between s (s.after answer)) ∨
    ∃ fault, (do let a ← op; return (journals, issue a) : Keeping (J × Issued)).run s.tables =
        (.error (.fault fault), s.tables) ∧ s.after answer = s := by
  cases answer with
  | ok next => exact .inl ⟨issue next.1, run_bind_ok hrun, hissue next.1 next.2 rfl⟩
  | error fault => exact .inr ⟨fault, run_bind_error hrun, rfl⟩

variable {ι : Type} [DecidableEq ι]

theorem Action.run_enact (w : Shared ι) (a : Action ι) :
    (∃ issued, (a.enact w.journals).run w.store.tables = (.ok ((w.act a).journals, issued), (w.act a).store.tables) ∧
      issued.Between w.store (w.act a).store) ∨
    ∃ fault, (a.enact w.journals).run w.store.tables = (.error (.fault fault), w.store.tables) ∧ w.act a = w := by
  have hsame : ∀ {s : Store}, s = w.store → ({ w with store := s } : Shared ι) = w := by
    rintro s rfl
    rfl
  cases a with
  | createNode draft tags =>
    exact .inl ⟨_, Keeping.run_bind_ok (Keeping.run_createNode w.store draft tags), .createNode w.store draft tags⟩
  | createEdge src dst draft =>
    refine (Keeping.run_direct (Keeping.run_createEdge w.store src dst draft) (fun _ _ => .createEdge)
      w.journals).imp_right ?_
    exact fun ⟨fault, hrun, hafter⟩ => ⟨fault, hrun, hsame hafter⟩
  | delete el =>
    refine (Keeping.run_direct (Keeping.run_delete w.store el) (fun _ s' h => ?_) w.journals).imp_right ?_
    · obtain ⟨s₁, hdelete, heq⟩ := map_eq_ok_iff.1 h
      cases heq
      exact .delete hdelete
    · exact fun ⟨fault, hrun, hafter⟩ => ⟨fault, hrun, hsame hafter⟩
  | tag el t =>
    refine (Keeping.run_direct (Keeping.run_tag w.store el t) (fun _ _ => .tag) w.journals).imp_right ?_
    exact fun ⟨fault, hrun, hafter⟩ => ⟨fault, hrun, hsame hafter⟩
  | untag el t =>
    refine (Keeping.run_direct (Keeping.run_untag w.store el t) (fun _ _ => .untag) w.journals).imp_right ?_
    exact fun ⟨fault, hrun, hafter⟩ => ⟨fault, hrun, hsame hafter⟩
  | importGraph g =>
    exact .inl ⟨_, Keeping.run_bind_ok (Keeping.run_importGraph w.store g), .importGraph w.store g⟩
  | request k r =>
    rcases r.run_enact (w.journals k) w.store with ⟨issued, hrun, hissued⟩ | ⟨fault, hrun, hperform⟩
    · exact .inl ⟨issued, Keeping.run_bind_ok hrun, hissued⟩
    · refine .inr ⟨fault, Keeping.run_bind_error hrun, ?_⟩
      show w.step (k, r) = w
      simp [Shared.step, hperform]

namespace Desk

/-- An action on the tables of a store is answered, and then they are the tables of the store after the action; or it is
refused, and they are what they were. -/
theorem step_eq (w : Shared ι) (a : Action ι) :
    (∃ issued, w.desk.step a = (.ok issued, (w.act a).desk) ∧ issued.Between w.store (w.act a).store) ∨
    ∃ fault, w.desk.step a = (.error (.fault fault), w.desk) ∧ w.act a = w := by
  unfold step
  rcases Action.run_enact w a with ⟨issued, hrun, hissued⟩ | ⟨fault, hrun, hact⟩
  · refine .inl ⟨issued, ?_, hissued⟩
    rw [show (a.enact w.desk.journals).run w.desk.tables = _ from hrun]
    rfl
  · refine .inr ⟨fault, ?_, hact⟩
    rw [show (a.enact w.desk.journals).run w.desk.tables = _ from hrun]
    rfl

/-! ## Runs -/

/-- What an answer hands out. -/
def issuedBy : Except Lapse Issued → Issued
  | .ok issued => issued
  | .error _ => {}

/-- All that answers hand out. -/
def issuedByAll (answers : List (Except Lapse Issued)) : Issued where
  nodes := answers.flatMap fun answer => (issuedBy answer).nodes
  edges := answers.flatMap fun answer => (issuedBy answer).edges

/-- Actions on the tables of a store leave the tables of the store after the actions, and hand out identities in order. -/
theorem run_eq (w : Shared ι) (actions : List (Action ι)) :
    (w.desk.run actions).2 = (actions.foldl Shared.act w).desk ∧
      (issuedByAll (w.desk.run actions).1).Between w.store (actions.foldl Shared.act w).store := by
  induction actions generalizing w with
  | nil => exact ⟨rfl, .none rfl rfl⟩
  | cons a actions ih =>
    obtain ⟨hdesk, hissued⟩ := ih (w.act a)
    have hstep : (w.desk.step a).2 = (w.act a).desk ∧ (issuedBy (w.desk.step a).1).Between w.store (w.act a).store := by
      rcases step_eq w a with ⟨issued, hstep, hbetween⟩ | ⟨fault, hstep, hact⟩
      · rw [hstep]
        exact ⟨rfl, hbetween⟩
      · rw [hstep, hact]
        exact ⟨rfl, .none rfl rfl⟩
    have hrun : w.desk.run (a :: actions) = ((w.desk.step a).1 :: ((w.act a).desk.run actions).1, ((w.act a).desk.run actions).2) := by
      rw [← hstep.1]
      rfl
    rw [hrun, List.foldl_cons]
    refine ⟨hdesk, hstep.2.append hissued⟩

end Desk

/-! ## Tables in step -/

/-- The tables agree with each other, and the counters are ahead of them. -/
structure Tables.InStep (t : Tables) : Prop where
  nodes_named : ∀ p ∈ t.nodes, p.2.id = p.1
  edges_named : ∀ p ∈ t.edges, p.2.id = p.1
  nodes_distinct : t.nodes.keys.Nodup
  edges_distinct : t.edges.keys.Nodup
  closed : ∀ e ∈ t.edges.values, e.src ∈ t.nodes.keys ∧ e.dst ∈ t.nodes.keys
  nodeTags : t.nodeTags.keys = t.nodes.keys
  edgeTags : t.edgeTags.keys = t.edges.keys
  nodes_below : ∀ k ∈ t.nodes.keys, k < t.nextNode
  edges_below : ∀ k ∈ t.edges.keys, k < t.nextEdge

theorem Store.inStep_tables (s : Store) : s.tables.InStep where
  nodes_named p hp := by
    obtain ⟨x, -, rfl⟩ := List.mem_map.1 hp
    rfl
  edges_named p hp := by
    obtain ⟨x, -, rfl⟩ := List.mem_map.1 hp
    rfl
  nodes_distinct := by
    rw [tables, keys_tableOf]
    exact s.wired.nodes_distinct
  edges_distinct := by
    rw [tables, keys_tableOf]
    exact s.wired.edges_distinct
  closed e he := by
    rw [tables, keys_tableOf]
    rw [tables, values_tableOf] at he
    exact s.wired.closed e he
  nodeTags := by rw [tables, keys_tableOf, keys_tableOf]
  edgeTags := by rw [tables, keys_tableOf, keys_tableOf]
  nodes_below k hk := by
    rw [tables, keys_tableOf] at hk
    obtain ⟨n, hn, rfl⟩ := List.mem_map.1 hk
    exact s.nodes_below n hn
  edges_below k hk := by
    rw [tables, keys_tableOf] at hk
    obtain ⟨e, he, rfl⟩ := List.mem_map.1 hk
    exact s.edges_below e he

/-- What is below a counter is not handed out from it on. -/
theorem nodup_append_range {l : List Int} {i j : Int} (hl : l.Nodup) (hbelow : ∀ k ∈ l, k < i) :
    (l ++ Int.range i j).Nodup := by
  refine List.nodup_append.2 ⟨hl, nodup_range i j, fun a ha b hb => ?_⟩
  have hlt := hbelow a ha
  have hle := (Int.mem_range_iff.1 hb).1
  omega

namespace Desk

omit [DecidableEq ι] in
theorem opened_eq (start : Option Graph) : opened start = (Shared.opened (ι := ι) (Store.opened start)).desk := by
  cases start with
  | none => rfl
  | some g => simp only [opened, Tables.ofGraph_eq]; rfl

/-- Opened empty or with a graph, and after any actions, the tables are those of the store after the actions. They are in step;
no identity has been handed out twice, nor one that was there at the start; an action that is refused is at fault itself and
changes nothing; and a snapshot, of all or of the part between some nodes, is given, with the tags that edges carry now. -/
theorem tables_stay_in_step (start : Option Graph) (actions : List (Action ι)) :
    let w := actions.foldl Shared.act (Shared.opened (Store.opened start))
    let answers := ((opened start).run actions).1
    let d := ((opened start).run actions).2
    d = w.desk ∧ d.tables.InStep ∧
      ((opened (ι := ι) start).tables.nodes.keys ++ (issuedByAll answers).nodes).Nodup ∧
      ((opened (ι := ι) start).tables.edges.keys ++ (issuedByAll answers).edges).Nodup ∧
      (∀ a lapse, (d.step a).1 = .error lapse → (∃ fault, lapse = .fault fault) ∧ (d.step a).2 = d) ∧
      ∀ ids, ∃ g, (Keeping.snapshot ids).run d.tables = (.ok g, d.tables) ∧ g = w.store.view ids ∧
        g.nodes = d.tables.nodes.values.filter (fun n => ids.all (·.contains n.id)) ∧
        g.edges = (d.tables.edges.values.filter fun e => ids.all (·.contains e.src) && ids.all (·.contains e.dst)).map
          fun e => { e with tags := (d.tables.edgeTags.lookup e.id).getD ∅ } := by
  intro w answers d
  obtain ⟨hdesk, hissued⟩ := run_eq (Shared.opened (Store.opened start)) actions
  rw [← opened_eq] at hdesk hissued
  have hstart := (Store.opened start).inStep_tables
  refine ⟨hdesk, ?_, ?_, ?_, ?_, ?_⟩
  · rw [show d = w.desk from hdesk]
    exact w.store.inStep_tables
  · rw [hissued.nodes, opened_eq]
    exact nodup_append_range hstart.nodes_distinct hstart.nodes_below
  · rw [hissued.edges, opened_eq]
    exact nodup_append_range hstart.edges_distinct hstart.edges_below
  · intro a lapse hlapse
    rw [show d = w.desk from hdesk] at hlapse ⊢
    rcases step_eq w a with ⟨issued, hstep, -⟩ | ⟨fault, hstep, -⟩
    · rw [hstep] at hlapse
      cases hlapse
    · rw [hstep] at hlapse ⊢
      cases hlapse
      exact ⟨⟨fault, rfl⟩, rfl⟩
  · intro ids
    rw [show d = w.desk from hdesk]
    refine ⟨_, Keeping.run_snapshot w.store ids, rfl, ?_, ?_⟩
    · rw [Store.nodes_view]
      show _ = (Table.values (tableOf Node.id Tagged.item w.store.nodes)).filter _
      rw [values_tableOf]
      rfl
    · exact (Keeping.edges_view_tables w.store ids).symm

end Desk

end Flowgraph
