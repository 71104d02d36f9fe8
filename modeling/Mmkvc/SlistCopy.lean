/-
# Copying a list (`algo/slist.h`)

`operator=` writes over the nodes that the list has, and then adds nodes or drops the rest.
`copyAssign_copies_iff` says when it copies: where the two are one object, or the other list is
not empty.  On an empty list it follows a null pointer.

The lists have the names `some i`; the name `none` is for the temporary of `operator=`.
-/
import Mmkvc.SlistOperations

namespace Mmkvc

namespace Slist

section

variable {ι V : Type}

/-! ## The source -/

/-- `*p`, of a pointer that may be null. -/
def deref : Option Addr → SlistM ι V Addr
  | none => failure
  | some node => return node

/-- `InsertAfterNode`. -/
def insertAfterNode (pos : Addr) (value : V) : SlistM ι V Unit := do
  let node ← createNode value
  let next := (← load pos).next
  modifyNode node fun n => { n with next := next }
  modifyNode pos fun n => { n with next := some node }

/-- `EraseAfterNode`. -/
def eraseAfterNode (pos : Addr) : SlistM ι V Unit := do
  let node ← deref (← load pos).next
  let next := (← load node).next
  modifyNode pos fun n => { n with next := next }
  dropNode node

/-- The loop that adds what follows `header2` behind `header`, in the copy constructor and in
`operator=`. -/
def copyLoop : ℕ → Option Addr → Option Addr → SlistM ι V Unit
  | _, _, none => return ()
  | 0, _, some _ => failure
  | fuel + 1, header, some node2 => do
    let node ← deref header
    insertAfterNode node (← load node2).value
    let header2 := (← load node2).next
    copyLoop fuel (← load node).next header2

/-- The loop of `operator=` that drops what is behind `header`. -/
def truncateLoop : ℕ → Addr → SlistM ι V Unit
  | 0, _ => failure
  | fuel + 1, header => do
    if (← load header).next.isNone then return () else do
      eraseAfterNode header
      truncateLoop fuel header

/-- The loop of `operator=` that writes over the nodes: where it leaves the two lists. -/
def assignLoop : ℕ → Addr → Addr → SlistM ι V (Addr × Option Addr)
  | 0, _, _ => failure
  | fuel + 1, header, header2 => do
    let value := (← load header2).value
    modifyNode header fun n => { n with value := value }
    match (← load header).next with
    | none => return (header, (← load header2).next)
    | some next => do
      match (← load header2).next with
      | none => return (header, none)
      | some next2 => assignLoop fuel next next2

/-- The end of `operator=`. -/
def finishAssign (header : Addr) (header2 : Option Addr) : SlistM ι V Unit := do
  if (← load header).next.isNone then copyLoop ((← bound) + 1) (some header) header2
  else truncateLoop ((← bound) + 1) header

variable [DecidableEq ι]

/-- The copy constructor, of a list `c` from a list `b`. -/
def copyConstruct (c b : ι) : SlistM ι V Unit := do
  setHeader c none
  match ← header b with
  | none => return ()
  | some front => do
    emplaceFront c (← load front).value
    copyLoop ((← bound) + 1) (← header c) (← load front).next

/-- `swap`. -/
def swap (a b : ι) : SlistM ι V Unit := do
  let p ← header a
  setHeader a (← header b)
  setHeader b p

/-- The start of `operator=`: an empty list is swapped with a copy of the other. -/
def assignToEmpty (a b : ι) : SlistM (Option ι) V Unit := do
  if ← isEmpty (some a) then do
    copyConstruct none (some b)
    swap none (some a)
    clear none
  else return ()

/-- What `operator=` then does. -/
def assignNodes (a b : ι) : SlistM ι V Unit := do
  let node ← deref (← header a)
  let node2 ← deref (← header b)
  let p ← assignLoop ((← bound) + 1) node node2
  finishAssign p.1 p.2

/-- `operator=`. -/
def copyAssign (a b : ι) : SlistM (Option ι) V Unit := do
  if a = b then return () else do
    assignToEmpty a b
    assignNodes (some a) (some b)

end

/-! ## What the loops do -/

section

variable {ι V : Type} {M : Multiset (Addr × SNode V)} {hd : ι → Option Addr} {top : ℕ} {b : ι}
  {a : Addr} {v w : V} {p : Option Addr} {es fs : List (Addr × V)}

theorem cells_node : cells ((a, v) :: es) = {(a, ⟨v, first es⟩)} + cells es := rfl

theorem deref_bind {β : Type} {P : SlistHeap ι V → Prop} {f : Addr → SlistM ι V β}
    {Q : β → SlistHeap ι V → Prop} (h : Triple P (f a) Q) : Triple P (deref (some a) >>= f) Q := h

/-- A new node is linked behind another one. -/
theorem insertAfterNode_spec :
    Triple (SlistMem ({(a, ⟨v, p⟩)} + M) hd top) (insertAfterNode a w)
      fun _ => SlistMem ({(a, ⟨v, some top⟩)} + ({(top, ⟨w, p⟩)} + M)) hd (top + 1) := by
  refine Triple.bind_eq createNode_spec ?_
  refine load_bind (n := ⟨v, p⟩) (by simp) (Triple.bind modifyNode_spec fun _ => ?_)
  rw [add_left_comm]
  exact modifyNode_spec

/-- The node behind another one is given back. -/
theorem eraseAfterNode_spec {e : Addr × V} :
    Triple (SlistMem (cells ((a, v) :: e :: es) + M) hd top) (eraseAfterNode a)
      fun _ => SlistMem (cells ((a, v) :: es) + M) hd top := by
  rw [cells_cons, cells_cons, cells_cons, first_cons, add_assoc, add_assoc, add_assoc]
  refine load_bind (n := ⟨v, some e.1⟩) (by simp) (deref_bind ?_)
  refine load_bind (n := ⟨e.2, first es⟩) (by simp) (Triple.bind modifyNode_spec fun _ => ?_)
  rw [add_left_comm]
  exact dropNode_spec

/-- The nodes of the source stay, and the target gets one node more for each of them. -/
theorem copyLoop_spec {fuel : ℕ} (hfuel : fs.length ≤ fuel) :
    Triple (SlistMem ({(a, ⟨v, none⟩)} + (cells fs + M)) hd top) (copyLoop fuel (some a) (first fs))
      fun _ s => ∃ es top', es.map Prod.snd = fs.map Prod.snd
        ∧ SlistMem (cells ((a, v) :: es) + (cells fs + M)) hd top' s := by
  induction fs generalizing a v M top fuel with
  | nil =>
    rw [first_nil, copyLoop]
    exact triple_pure fun s hs => ⟨[], top, rfl, hs⟩
  | cons f fs ih =>
    obtain ⟨fuel, rfl⟩ := Nat.exists_eq_add_one_of_ne_zero
      (Nat.ne_of_gt (Nat.lt_of_lt_of_le fs.length.succ_pos hfuel))
    rw [first_cons, copyLoop, cells_cons, add_assoc]
    refine deref_bind ?_
    refine load_bind (n := ⟨f.2, first fs⟩) (by simp) ?_
    refine Triple.bind insertAfterNode_spec fun _ => ?_
    refine load_bind (n := ⟨f.2, first fs⟩) (by simp) ?_
    refine load_bind (n := ⟨v, some top⟩) (by simp) ?_
    -- the node that was the last, and the one that was copied, are left
    have hmem : {(a, ⟨v, some top⟩)} + ({(top, ⟨f.2, none⟩)} + ({(f.1, ⟨f.2, first fs⟩)}
          + (cells fs + M)))
        = {(top, ⟨f.2, none⟩)} + (cells fs + ({(f.1, ⟨f.2, first fs⟩)} + ({(a, ⟨v, some top⟩)}
          + M))) := by
      ac_rfl
    rw [hmem]
    refine (ih (Nat.le_of_succ_le_succ hfuel)).post ?_
    rintro _ s ⟨es, top', hval, hs⟩
    refine ⟨(top, f.2) :: es, top', by rw [List.map_cons, hval, List.map_cons], ?_⟩
    rw [cells_cons, first_cons]
    have hmem' : {(a, ⟨v, some top⟩)} + cells ((top, f.2) :: es) + ({(f.1, ⟨f.2, first fs⟩)}
          + (cells fs + M))
        = cells ((top, f.2) :: es) + (cells fs + ({(f.1, ⟨f.2, first fs⟩)}
          + ({(a, ⟨v, some top⟩)} + M))) := by
      ac_rfl
    rwa [hmem']

/-- The nodes behind the one at hand are given back. -/
theorem truncateLoop_spec {fuel : ℕ} (hfuel : es.length < fuel) :
    Triple (SlistMem (cells ((a, v) :: es) + M) hd top) (truncateLoop fuel a)
      fun _ => SlistMem (cells [(a, v)] + M) hd top := by
  induction es generalizing fuel with
  | nil =>
    obtain ⟨fuel, rfl⟩ := Nat.exists_eq_add_one_of_ne_zero (Nat.ne_of_gt hfuel)
    rw [truncateLoop]
    exact load_bind (n := ⟨v, none⟩) (by simp [cells_cons]) (triple_pure fun s hs => hs)
  | cons e es ih =>
    obtain ⟨fuel, rfl⟩ := Nat.exists_eq_add_one_of_ne_zero (Nat.ne_of_gt (Nat.zero_lt_of_lt hfuel))
    rw [truncateLoop]
    refine load_bind (n := ⟨v, some e.1⟩) (by simp [cells_cons]) ?_
    exact Triple.bind eraseAfterNode_spec fun _ => ih (Nat.lt_of_succ_lt_succ hfuel)

/-- The end, at the last node that both lists have: either the target has no more, or the source
has no more. -/
theorem finishAssign_spec (hend : es = [] ∨ fs = []) :
    Triple (SlistMem (cells ((a, v) :: es) + (cells fs + M)) hd top)
      (finishAssign a (first fs)) fun _ s => ∃ es' top', es'.map Prod.snd = fs.map Prod.snd
        ∧ SlistMem (cells ((a, v) :: es') + (cells fs + M)) hd top' s := by
  refine load_bind (n := ⟨v, first es⟩) (by simp [cells_cons]) ?_
  cases es with
  | nil =>
    refine bound_bind ?_
    refine Triple.of_pre (fun hle => copyLoop_spec (Nat.le_succ_of_le hle)) fun s hs => ?_
    rw [add_left_comm] at hs
    exact length_le hs
  | cons e es =>
    obtain rfl : fs = [] := hend.resolve_left (List.cons_ne_nil e es)
    refine bound_bind (Triple.of_pre (fun hle => ?_) fun s hs => length_le hs)
    exact (truncateLoop_spec (Nat.lt_succ_of_lt hle)).post fun _ s hs => ⟨[], top, rfl, hs⟩

/-- From a pair of nodes on, the target becomes the source.  The nodes that the loop has left are in
`M`. -/
theorem assignLoop_spec {f : Addr × V} {fuel : ℕ} (hfuel : es.length < fuel) :
    Triple (SlistMem (cells ((a, v) :: es) + (cells (f :: fs) + M)) hd top)
      (assignLoop fuel a f.1 >>= fun p => finishAssign p.1 p.2)
      fun _ s => ∃ es' top', es'.map Prod.snd = fs.map Prod.snd
        ∧ SlistMem (cells ((a, f.2) :: es') + (cells (f :: fs) + M)) hd top' s := by
  induction es generalizing a v f fs M fuel with
  | nil =>
    obtain ⟨fuel, rfl⟩ := Nat.exists_eq_add_one_of_ne_zero (Nat.ne_of_gt hfuel)
    have hf : (f.1, ⟨f.2, first fs⟩) ∈ cells (f :: fs) + M := by simp [cells_cons]
    rw [assignLoop, cells_node, first_nil, cells_nil, add_zero]
    simp only [bind_assoc]
    refine load_bind (n := ⟨f.2, first fs⟩) (Multiset.mem_add.mpr (Or.inr hf)) ?_
    refine Triple.bind modifyNode_spec fun _ => load_bind (n := ⟨f.2, none⟩) (by simp) ?_
    simp only [bind_assoc, pure_bind]
    refine load_bind (n := ⟨f.2, first fs⟩) (Multiset.mem_add.mpr (Or.inr hf)) ?_
    -- what is left is the end, with the node of the source in its frame
    have hmem : {(a, ⟨f.2, none⟩)} + (cells (f :: fs) + M)
        = cells [(a, f.2)] + (cells fs + ({(f.1, ⟨f.2, first fs⟩)} + M)) := by
      rw [cells_cons (e := f), cells_node, first_nil, cells_nil, add_zero]
      ac_rfl
    rw [hmem]
    refine (finishAssign_spec (Or.inl rfl)).post ?_
    rintro _ s ⟨es', top', hval, hs⟩
    refine ⟨es', top', hval, ?_⟩
    have hmem' : cells (f :: fs) + M = cells fs + ({(f.1, ⟨f.2, first fs⟩)} + M) := by
      rw [cells_cons]
      ac_rfl
    rwa [hmem']
  | cons e es ih =>
    obtain ⟨fuel, rfl⟩ := Nat.exists_eq_add_one_of_ne_zero (Nat.ne_of_gt (Nat.zero_lt_of_lt hfuel))
    have hf : ∀ {n : SNode V}, (f.1, ⟨f.2, first fs⟩) ∈ {(a, n)}
        + (cells (e :: es) + (cells (f :: fs) + M)) := by simp [cells_cons]
    rw [assignLoop, cells_node, first_cons, add_assoc]
    simp only [bind_assoc]
    refine load_bind (n := ⟨f.2, first fs⟩) hf (Triple.bind modifyNode_spec fun _ => ?_)
    refine load_bind (n := ⟨f.2, some e.1⟩) (by simp) ?_
    simp only [bind_assoc]
    refine load_bind (n := ⟨f.2, first fs⟩) hf ?_
    cases fs with
    | nil =>
      simp only [first_nil, pure_bind]
      have hmem : {(a, ⟨f.2, some e.1⟩)} + (cells (e :: es) + (cells [f] + M))
          = cells ((a, f.2) :: e :: es) + (cells [] + (cells [f] + M)) := by
        rw [cells_node (a := a), first_cons, cells_nil, zero_add, add_assoc]
      rw [hmem]
      refine (finishAssign_spec (Or.inr rfl)).post ?_
      rintro _ s ⟨es', top', hval, hs⟩
      rw [cells_nil, zero_add] at hs
      exact ⟨es', top', hval, hs⟩
    | cons f' fs =>
      simp only [first_cons]
      -- both nodes that are left go to the frame
      have hmem : {(a, ⟨f.2, some e.1⟩)} + (cells (e :: es) + (cells (f :: f' :: fs) + M))
          = cells (e :: es) + (cells (f' :: fs)
            + ({(f.1, ⟨f.2, some f'.1⟩)} + ({(a, ⟨f.2, some e.1⟩)} + M))) := by
        rw [cells_cons (e := f), first_cons]
        ac_rfl
      rw [hmem]
      refine (ih (Nat.lt_of_succ_lt_succ hfuel)).post ?_
      rintro _ s ⟨es', top', hval, hs⟩
      refine ⟨(e.1, f'.2) :: es', top', by rw [List.map_cons, hval, List.map_cons], ?_⟩
      have hmem' : cells ((a, f.2) :: (e.1, f'.2) :: es') + (cells (f :: f' :: fs) + M)
          = cells ((e.1, f'.2) :: es') + (cells (f' :: fs)
            + ({(f.1, ⟨f.2, some f'.1⟩)} + ({(a, ⟨f.2, some e.1⟩)} + M))) := by
        rw [cells_cons (e := f), cells_node (a := a), first_cons, first_cons]
        ac_rfl
      rwa [hmem']

/-! ## What the operations do -/

/-- Both lists have a node. -/
theorem assignNodes_spec {c : ι} {e f : Addr × V} (hc : hd c = some e.1) (hb : hd b = some f.1) :
    Triple (SlistMem (cells (e :: es) + (cells (f :: fs) + M)) hd top) (assignNodes c b)
      fun _ s => ∃ es' top', es'.map Prod.snd = (f :: fs).map Prod.snd ∧ hd c = first es'
        ∧ SlistMem (cells es' + (cells (f :: fs) + M)) hd top' s := by
  refine header_bind ?_
  rw [hc]
  refine deref_bind (header_bind ?_)
  rw [hb]
  refine deref_bind (bound_bind (Triple.of_pre (fun hle => ?_) fun s hs => length_le hs))
  refine (assignLoop_spec (a := e.1) (v := e.2) (Nat.lt_succ_of_lt hle)).post ?_
  rintro _ s ⟨es', top', hval, hs⟩
  exact ⟨(e.1, f.2) :: es', top', by rw [List.map_cons, hval, List.map_cons], rfl, hs⟩

/-- A list is empty if its header is null. -/
theorem isEmpty_bind {β : Type} {f : Bool → SlistM ι V β}
    {Q : β → SlistHeap ι V → Prop} (h : Triple (SlistMem M hd top) (f (hd b).isNone) Q) :
    Triple (SlistMem M hd top) (isEmpty b >>= f) Q := by
  unfold isEmpty
  simp only [bind_assoc, pure_bind]
  exact header_bind h

end

section

variable {ι V : Type} [DecidableEq ι] {M : Multiset (Addr × SNode V)} {top : ℕ}
  {es fs : List (Addr × V)}

theorem swap_spec {hd : ι → Option Addr} {a b : ι} : Triple (SlistMem M hd top) (swap a b : SlistM ι V Unit)
    fun _ => SlistMem M (Function.update (Function.update hd a (hd b)) b (hd a)) top :=
  header_bind (header_bind (Triple.bind setHeader_spec fun _ => setHeader_spec))

/-- A new list gets nodes of its own with the same values. -/
theorem copyConstruct_spec {hd : ι → Option Addr} {c b : ι} (hcb : b ≠ c) (hb : hd b = first fs) :
    Triple (SlistMem (cells fs + M) hd top) (copyConstruct c b)
      fun _ s => ∃ es top', es.map Prod.snd = fs.map Prod.snd
        ∧ SlistMem (cells es + (cells fs + M)) (Function.update hd c (first es)) top' s := by
  refine Triple.bind setHeader_spec fun _ => header_bind ?_
  rw [Function.update_of_ne hcb, hb]
  cases fs with
  | nil => exact triple_pure fun s hs => ⟨[], top, rfl, by rwa [cells_nil, zero_add]⟩
  | cons f fs =>
    refine load_bind (n := ⟨f.2, first fs⟩) (by simp [cells_cons]) ?_
    rw [← zero_add (cells (f :: fs) + M), ← cells_nil (V := V)]
    refine Triple.bind (emplaceFront_spec (Function.update_self ..)) fun _ => ?_
    refine bound_bind (header_bind ?_)
    refine load_bind (n := ⟨f.2, first fs⟩) (by simp [cells_cons]) ?_
    rw [Function.update_self, Function.update_idem]
    have hmem : cells [(top, f.2)] + (cells (f :: fs) + M)
        = {(top, ⟨f.2, none⟩)} + (cells fs + ({(f.1, ⟨f.2, first fs⟩)} + M)) := by
      rw [cells_cons (e := f), cells_node, first_nil, cells_nil, add_zero]
      abel
    rw [hmem]
    refine Triple.of_pre (C := fs.length ≤ top + 1) (fun hle => ?_) fun s hs =>
      length_le (by rwa [add_left_comm] at hs)
    refine (copyLoop_spec (Nat.le_succ_of_le hle)).post ?_
    rintro _ s ⟨es, top', hval, hs⟩
    refine ⟨(top, f.2) :: es, top', by rw [List.map_cons, hval, List.map_cons], ?_⟩
    have hmem' : cells ((top, f.2) :: es) + (cells (f :: fs) + M)
        = cells ((top, f.2) :: es) + (cells fs + ({(f.1, ⟨f.2, first fs⟩)} + M)) := by
      rw [cells_cons (e := f)]
      ac_rfl
    rwa [cells_nil, zero_add, hmem', first_cons]

variable {hd : Option ι → Option Addr} {a b : ι}

/-- Where the other list has a node, the list has one after the start of `operator=`. -/
theorem assignToEmpty_spec (ha : hd (some a) = first es) (hb : hd (some b) = first fs) :
    Triple (SlistMem (cells es + (cells fs + M)) hd top) (assignToEmpty a b)
      fun _ s => ∃ es' hd' top', (es' = [] → fs = []) ∧ hd' (some a) = first es'
        ∧ (∀ i, i ≠ a → hd' (some i) = hd (some i))
        ∧ SlistMem (cells es' + (cells fs + M)) hd' top' s := by
  refine isEmpty_bind ?_
  rw [ha]
  cases es with
  | cons e es =>
    exact triple_pure fun s hs => ⟨e :: es, hd, top, nofun, ha, fun i _ => rfl, hs⟩
  | nil =>
    rw [cells_nil, zero_add]
    refine Triple.bind (copyConstruct_spec (Option.some_ne_none b) hb) fun _ => ?_
    refine Triple.exists_pre fun es => Triple.exists_pre fun top' => ?_
    refine Triple.of_pre (C := es.map Prod.snd = fs.map Prod.snd) (fun hval => ?_) fun s hs => hs.1
    refine Triple.pre ?_ fun s hs => hs.2
    refine Triple.bind swap_spec fun _ => ?_
    rw [← zero_add (cells es + (cells fs + M)), ← cells_nil (V := V)]
    refine (clear_spec ?_).post fun _ s hs => ?_
    · rw [Function.update_of_ne (Option.some_ne_none a).symm, Function.update_self,
        Function.update_of_ne (Option.some_ne_none a), ha]
    · refine ⟨es, _, top', ?_, ?_, fun i hi => ?_, hs⟩
      · rintro rfl
        exact List.map_eq_nil_iff.mp hval.symm
      · rw [Function.update_of_ne (Option.some_ne_none a), Function.update_self,
          Function.update_self]
      · rw [Function.update_of_ne (Option.some_ne_none i),
          Function.update_of_ne fun h => hi (Option.some.inj h),
          Function.update_of_ne (Option.some_ne_none i),
          Function.update_of_ne (Option.some_ne_none i)]

/-- From a list that is not empty the list becomes a copy. -/
theorem copyAssign_spec {f : Addr × V} (hab : a ≠ b) (ha : hd (some a) = first es)
    (hb : hd (some b) = first (f :: fs)) :
    Triple (SlistMem (cells es + (cells (f :: fs) + M)) hd top) (copyAssign a b)
      fun _ s => ∃ es' hd' top', es'.map Prod.snd = (f :: fs).map Prod.snd
        ∧ hd' (some a) = first es' ∧ (∀ i, i ≠ a → hd' (some i) = hd (some i))
        ∧ SlistMem (cells es' + (cells (f :: fs) + M)) hd' top' s := by
  rw [copyAssign, if_neg hab]
  refine Triple.bind (assignToEmpty_spec ha hb) fun _ => ?_
  refine Triple.exists_pre fun es' => Triple.exists_pre fun hd' => Triple.exists_pre fun top' => ?_
  rintro s ⟨hne, ha', hi, hs⟩
  cases es' with
  | nil => cases hne rfl
  | cons e es' =>
    have hb' : hd' (some b) = some f.1 := (hi b hab.symm).trans hb
    obtain ⟨_, s', hrun, es₁, top₁, hval, ha₁, hs'⟩ := assignNodes_spec ha' hb' s hs
    exact ⟨(), s', hrun, es₁, hd', top₁, hval, ha₁, hi, hs'⟩

/-- From an empty list nothing is copied. -/
theorem copyAssign_stuck {s : SlistHeap (Option ι) V} (hab : a ≠ b) (ha : hd (some a) = first es)
    (hb : hd (some b) = none) (hs : SlistMem (cells es + M) hd top s) :
    (copyAssign a b).run s = none := by
  rw [copyAssign, if_neg hab]
  rw [← zero_add M, ← cells_nil (V := V)] at hs
  obtain ⟨_, s', hrun, es', hd', top', -, ha', hi, hs'⟩ := assignToEmpty_spec ha hb s hs
  refine run_bind_eq hrun ?_
  have hnull : s'.headers (some b) = none := by rw [hs'.headers, hi b hab.symm, hb]
  have hsource : (header (some b) : SlistM (Option ι) V (Option Addr)).run s' = some (none, s') := by
    rw [← hnull]
    rfl
  have hstuck : ∀ node : Addr, (do
      let node2 ← deref (← header (some b))
      let p ← assignLoop ((← bound) + 1) node node2
      finishAssign p.1 p.2 : SlistM (Option ι) V Unit).run s' = none := fun node =>
    run_bind_eq hsource rfl
  have hfront : (header (some a) : SlistM (Option ι) V (Option Addr)).run s'
      = some (s'.headers (some a), s') := rfl
  refine run_bind_eq hfront ?_
  cases s'.headers (some a) with
  | none => rfl
  | some node => exact hstuck node

end

/-! ## Copying -/

section

variable {ι V : Type}

/-- The lists `ls` are in memory, no two of them with a node in common, and nothing is at an address
that was not given out. -/
structure Lists (s : SlistHeap (Option ι) V) (ls : ι → List (Addr × V)) : Prop where
  header : ∀ i, s.headers (some i) = first (ls i)
  node : ∀ i, ∀ c ∈ cells (ls i), s.nodes c.1 = some c.2
  nodup : ∀ i, ((ls i).map Prod.fst).Nodup
  disjoint : ∀ i j, i ≠ j → List.Disjoint ((ls i).map Prod.fst) ((ls j).map Prod.fst)
  fresh : ∀ a, s.next ≤ a → s.nodes a = none

variable {s : SlistHeap (Option ι) V} {ls : ι → List (Addr × V)} {a b : ι}

/-- The nodes of a list are at the addresses of its entries. -/
theorem mem_cells_fst {es : List (Addr × V)} {c : Addr × SNode V} (hc : c ∈ cells es) :
    c.1 ∈ es.map Prod.fst := by
  have hmem := Multiset.mem_map_of_mem Prod.fst hc
  rwa [cells_map_fst, Multiset.map_coe, Multiset.mem_coe] at hmem

/-- Two of the lists, and what else is in memory. -/
theorem Lists.exists_mem (h : Lists s ls) (hab : a ≠ b) :
    ∃ M, SlistMem (cells (ls a) + (cells (ls b) + M)) s.headers s.next s := by
  have hnodup : ((cells (ls a) + cells (ls b)).map Prod.fst).Nodup := by
    rw [Multiset.map_add, cells_map_fst, cells_map_fst, Multiset.nodup_add]
    exact ⟨Multiset.coe_nodup.mpr (h.nodup a), Multiset.coe_nodup.mpr (h.nodup b),
      (Multiset.coe_disjoint _ _).mpr (h.disjoint a b hab)⟩
  obtain ⟨M₀, hM₀⟩ := Sat.exists_of_bounded h.fresh
  obtain ⟨M, hM⟩ := hM₀.exists_add hnodup fun c hc =>
    (Multiset.mem_add.mp hc).elim (h.node a c) (h.node b c)
  exact ⟨M, by rwa [← add_assoc], rfl, rfl, h.fresh⟩

variable [DecidableEq ι]

/-- `a = b` makes `a` a copy of `b` and leaves the other lists as they are. -/
def Copies (a b : ι) (s : SlistHeap (Option ι) V) (ls : ι → List (Addr × V)) : Prop :=
  ∃ s', (copyAssign a b).run s = some ((), s')
    ∧ ∃ es, es.map Prod.snd = (ls b).map Prod.snd ∧ Lists s' (Function.update ls a es)

/-- The list `a` has got new nodes, and the others have theirs. -/
theorem Lists.update {s' : SlistHeap (Option ι) V} {es : List (Addr × V)}
    {M : Multiset (Addr × SNode V)} {hd : Option ι → Option Addr} {top : ℕ} (h : Lists s ls)
    (hs : SlistMem (cells (ls a) + M) s.headers s.next s) (ha : hd (some a) = first es)
    (hi : ∀ i, i ≠ a → hd (some i) = s.headers (some i)) (hs' : SlistMem (cells es + M) hd top s') :
    Lists s' (Function.update ls a es) := by
  have hrest : ∀ i, i ≠ a → ∀ c ∈ cells (ls i), c ∈ M := by
    intro i hia c hc
    refine (Multiset.mem_add.mp (hs.sat.mem_of_eq (h.node i c hc))).resolve_left fun hmem => ?_
    exact List.disjoint_left.mp (h.disjoint i a hia) (mem_cells_fst hc) (mem_cells_fst hmem)
  have hdisj : ∀ i, i ≠ a → List.Disjoint (es.map Prod.fst) ((ls i).map Prod.fst) := by
    intro i hia
    refine List.disjoint_left.mpr fun x hx hx' => ?_
    obtain ⟨e, he, rfl⟩ := List.mem_map.mp hx
    obtain ⟨e', he', heq⟩ := List.mem_map.mp hx'
    obtain ⟨n, hn⟩ := exists_mem_cells he
    obtain ⟨n', hn'⟩ := exists_mem_cells he'
    exact hs'.sat.ne_of_mem hn (hrest i hia _ hn') heq.symm
  refine ⟨fun i => ?_, fun i c hc => ?_, fun i => ?_, fun i j hij => ?_, fun x hx => ?_⟩
  · by_cases hia : i = a
    · rw [hia, Function.update_self, hs'.headers, ha]
    · rw [Function.update_of_ne hia, hs'.headers, hi i hia, h.header]
  · by_cases hia : i = a
    · rw [hia, Function.update_self] at hc
      exact hs'.sat.cell c (Multiset.mem_add.mpr (Or.inl hc))
    · rw [Function.update_of_ne hia] at hc
      exact hs'.sat.cell c (Multiset.mem_add.mpr (Or.inr (hrest i hia c hc)))
  · by_cases hia : i = a
    · have hnodup := hs'.sat.nodup
      rw [Multiset.map_add, Multiset.nodup_add, cells_map_fst] at hnodup
      rw [hia, Function.update_self]
      exact hnodup.1
    · rw [Function.update_of_ne hia]
      exact h.nodup i
  · by_cases hia : i = a
    · rw [hia, Function.update_self, Function.update_of_ne (hia ▸ hij.symm)]
      exact hdisj j (hia ▸ hij.symm)
    · rw [Function.update_of_ne hia]
      by_cases hja : j = a
      · rw [hja, Function.update_self]
        exact (hdisj i hia).symm
      · rw [Function.update_of_ne hja]
        exact h.disjoint i j hij
  · exact hs'.fresh x (by rwa [← hs'.next])

/-- **When the copy assignment copies.**  Of two lists in memory, whatever their lengths, `a = b`
makes `a` a copy of `b` if they are one object or `b` is not empty, and else it follows a null
pointer. -/
theorem copyAssign_copies_iff (h : Lists s ls) : Copies a b s ls ↔ a = b ∨ ls b ≠ [] := by
  constructor
  · rintro ⟨s', hrun, -⟩
    by_contra hcon
    obtain ⟨hab, hempty⟩ := not_or.mp hcon
    obtain ⟨M, hs⟩ := h.exists_mem hab
    have hstuck := copyAssign_stuck hab (h.header a)
      ((h.header b).trans (by rw [not_not.mp hempty]; rfl)) hs
    rw [hrun] at hstuck
    cases hstuck
  · intro hcond
    by_cases hab : a = b
    · refine ⟨s, by rw [copyAssign, if_pos hab]; rfl, ls a, by rw [hab], ?_⟩
      rwa [Function.update_eq_self]
    · obtain ⟨f, fs, hb⟩ := List.exists_cons_of_ne_nil (hcond.resolve_left hab)
      obtain ⟨M, hs⟩ := h.exists_mem hab
      have hcopy := hs
      rw [hb] at hcopy
      obtain ⟨_, s', hrun, es, hd, top, hval, ha, hi, hs'⟩ :=
        copyAssign_spec hab (h.header a) ((h.header b).trans (by rw [hb])) s hcopy
      refine ⟨s', hrun, es, by rw [hval, hb], h.update hs ha hi (hb.symm ▸ hs')⟩

end

/-- A list of one node, and an empty one. -/
def oneNode : SlistHeap (Option Bool) ℤ where
  nodes a := if a = 0 then some ⟨10, none⟩ else none
  next := 1
  headers i := if i = some false then some 0 else none

/-- The two lists. -/
def oneEntry (i : Bool) : List (Addr × ℤ) := if i then [] else [(0, 10)]

/-- A list of one node. -/
theorem lists_oneNode : Lists oneNode oneEntry where
  header := by decide
  node := by decide
  nodup := by decide
  disjoint := by
    rintro (_ | _) (_ | _) hne
    · cases hne rfl
    · exact List.disjoint_nil_right _
    · exact List.disjoint_nil_left _
    · cases hne rfl
  fresh a ha := if_neg (Nat.pos_iff_ne_zero.mp ha)

/-- The empty list becomes a copy of the other, and the other does not become empty. -/
theorem copyAssign_copies_iff_oneNode :
    Copies true false oneNode oneEntry ∧ ¬ Copies false true oneNode oneEntry := by
  refine ⟨(copyAssign_copies_iff lists_oneNode).mpr (Or.inr (by decide)), fun h => ?_⟩
  exact ((copyAssign_copies_iff lists_oneNode).mp h).elim (by decide) fun hne => hne rfl

/-- The empty list is not copied. -/
theorem copyAssign_not_copies : ¬ ∀ (a b : Bool) (s : SlistHeap (Option Bool) ℤ)
    (ls : Bool → List (Addr × ℤ)), Lists s ls → Copies a b s ls := by
  intro h
  obtain ⟨s', hrun, -⟩ := h false true oneNode oneEntry lists_oneNode
  have hstuck : (copyAssign false true).run oneNode = none := rfl
  rw [hstuck] at hrun
  cases hrun

end Slist

end Mmkvc
