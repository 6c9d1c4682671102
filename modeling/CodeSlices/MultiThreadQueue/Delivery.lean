import CodeSlices.MultiThreadQueue.Run

/-!
# What the callers of `q_dequeue` receive

`q_dequeue` frees the right node but stores the data in its own copy of the pointer. So a caller
gets the data of the node it removed only where its object already held that value.
-/

namespace CodeSlices.MultiThreadQueue

open CodeSlices.Transition CodeSlices.Ring

/-- Each caller that passed a slot has in it the data its node was inserted with. -/
def Delivered (received : List (Option Addr)) (inserted : List Node) : Prop :=
  ∀ (k : Nat) (v : Addr), received[k]? = some (some v) → (inserted[k]?).map Node.data = some v

/-- Where the call removes a node, the caller's slot already holds that node's data. -/
def SlotHolds (q : Addr) (s : State) (e : Event) : Prop :=
  match e.call with
  | .enqueue _ _ => True
  | .dequeue data => data ≠ NULL → s.mem.next q ≠ q → s.mem.slot data = s.mem.data (s.mem.next q)

instance (q : Addr) (s : State) (e : Event) : Decidable (SlotHolds q s e) := by
  rcases e with ⟨_, _ | _⟩ <;> unfold SlotHolds <;> infer_instance

variable {q : Addr} {s t : State} {e : Event} {received : List (Option Addr)}
  {inserted : List Node}

theorem delivered_insert (hle : received.length ≤ inserted.length) (node : Node) :
    Delivered received (inserted ++ [node]) ↔ Delivered received inserted := by
  refine forall₂_congr fun k v => imp_congr_right fun hget => ?_
  have hlt : k < received.length := (List.getElem?_eq_some_iff.mp hget).1
  rw [List.getElem?_append_left (hlt.trans_le hle)]

theorem delivered_receive {node : Node} (hnode : inserted[received.length]? = some node)
    (r : Option Addr) :
    Delivered (received ++ [r]) inserted ↔ Delivered received inserted ∧ ∀ v, r = some v →
      v = node.data := by
  have hlast : (received ++ [r])[received.length]? = some r := List.getElem?_concat_length
  constructor
  · intro h
    refine ⟨fun k v hget => h k v ?_, fun v hr => ?_⟩
    · have hlt : k < received.length := (List.getElem?_eq_some_iff.mp hget).1
      rwa [List.getElem?_append_left hlt]
    · have hdata := h received.length v (hr ▸ hlast)
      rw [hnode, Option.map_some] at hdata
      exact (Option.some.inj hdata).symm
  · rintro ⟨h, hr⟩ k v hget
    have hlt : k < received.length + 1 := by
      simpa using (List.getElem?_eq_some_iff.mp hget).1
    rcases Nat.lt_succ_iff_lt_or_eq.mp hlt with hlt | rfl
    · exact h k v (by rwa [List.getElem?_append_left hlt] at hget)
    · rw [hlast] at hget
      rw [hnode, Option.map_some, hr v (Option.some.inj hget)]

theorem delivered_step (hs : Inv q s) (hstep : step q s e = some t) :
    Delivered t.received t.inserted ↔ Delivered s.received s.inserted ∧ SlotHolds q s e := by
  have hmove := move_of_step hs hstep
  have hring := hs.holds.linked.ring
  unfold SlotHolds
  generalize e.call = call at hmove
  cases hmove with
  | failed data => exact (and_iff_left trivial).symm
  | enqueued data p mem =>
      exact (delivered_insert hs.removed_le _).trans (and_iff_left trivial).symm
  | empty data hempty =>
      have hnext : s.mem.next q = q := hring.next_head_eq_iff.mpr (by rw [hempty, List.map_nil])
      exact (and_iff_left fun _ hne => absurd hnext hne).symm
  | dequeued data node rest mem hpending hholds hdata hslot =>
      obtain ⟨hget, _, _⟩ := pending_remove hpending
      rw [hpending, List.map_cons] at hring
      have hnode : s.mem.data node.block = node.data :=
        hs.data node (hpending ▸ List.mem_cons_self)
      have hne : node.block ≠ q := fun heq =>
        (List.nodup_cons.mp hring.nodup).1 (heq ▸ List.mem_cons_self)
      rw [delivered_receive hget, hslot, hring.next_head, hnode]
      refine and_congr_right fun _ => ?_
      by_cases hnull : data = NULL
      · simp [hnull]
      · simp [hnull, hne]

/-- When every caller passed a slot, the values received are the values enqueued, in order. -/
theorem delivered_iff_eq_take (hslots : ∀ r ∈ received, r ≠ none) :
    Delivered received inserted ↔
      received = (inserted.take received.length).map fun node => some node.data := by
  constructor
  · intro h
    refine List.ext_getElem? fun k => ?_
    rw [List.getElem?_map]
    by_cases hk : k < received.length
    · have hget : received[k]? = some received[k] := List.getElem?_eq_getElem hk
      obtain ⟨v, hv⟩ := Option.ne_none_iff_exists'.mp (hslots received[k] (List.getElem_mem hk))
      have hdata := h k v (hv ▸ hget)
      obtain ⟨node, hnode, rfl⟩ := Option.map_eq_some_iff.mp hdata
      rw [List.getElem?_take_of_lt hk, hnode, hget, hv, Option.map_some]
    · have hge : received.length ≤ k := Nat.le_of_not_lt hk
      rw [List.getElem?_eq_none hge, List.getElem?_eq_none ((List.length_take_le _ _).trans hge),
        Option.map_none]
  · intro heq k v hget
    have hk : k < received.length := (List.getElem?_eq_some_iff.mp hget).1
    rw [heq, List.getElem?_map, List.getElem?_take_of_lt hk] at hget
    obtain ⟨node, hnode, hdata⟩ := Option.map_eq_some_iff.mp hget
    rw [hnode, Option.map_some, Option.some.inj hdata]

/-- In every run the callers receive what was enqueued exactly when, at every dequeue that removes a
node, the caller's slot already held that node's data. -/
theorem delivered_iff_slotHolds (hq : q ≠ NULL) {slot : Addr → Addr} {es : List Event} {s : State}
    (hrun : exec (step q) (initial q slot) es = some s) :
    (Delivered s.received s.inserted ↔
      Guarded (step q) (SlotHolds q) (initial q slot) es) ∧
    ((∀ r ∈ s.received, r ≠ none) →
      (s.received = (s.inserted.take s.received.length).map (fun node => some node.data) ↔
        Guarded (step q) (SlotHolds q) (initial q slot) es)) := by
  have hinit : Delivered (initial q slot).received (initial q slot).inserted := nofun
  have hiff : Delivered s.received s.inserted ↔
      Guarded (step q) (SlotHolds q) (initial q slot) es := by
    have hgood := good_iff_guarded (fun _ _ _ => inv_step) (fun _ _ _ => delivered_step)
      (inv_initial hq slot) hrun
    exact hgood.trans (and_iff_right hinit)
  exact ⟨hiff, fun hslots => (delivered_iff_eq_take hslots).symm.trans hiff⟩

def oneValue : List Event := [⟨0, .enqueue 7 (some 2)⟩, ⟨1, .dequeue 9⟩]

/-- With the slot cleared the value does not arrive. -/
theorem oneValue_not_delivered : ∃ s, exec (step 1) (initial 1 fun _ => 0) oneValue = some s ∧
    ¬ Delivered s.received s.inserted ∧ s.received = [some 0] ∧
      s.inserted.map Node.data = [7] := by
  have hrun : ((exec (step 1) (initial 1 fun _ => 0) oneValue).map
      fun s => (s.received, s.inserted)) = some ([some 0], [⟨2, 7⟩]) := by decide
  obtain ⟨s, hs, hfinal⟩ := Option.map_eq_some_iff.mp hrun
  obtain ⟨hreceived, hinserted⟩ := Prod.mk.inj hfinal
  refine ⟨s, hs, fun h => ?_, hreceived, by rw [hinserted]; rfl⟩
  rw [hreceived, hinserted] at h
  exact absurd (h 0 0 rfl) (by decide)

theorem oneValue_delivered : ∃ s, exec (step 1) (initial 1 fun _ => 7) oneValue = some s ∧
    Delivered s.received s.inserted ∧
      s.received = (s.inserted.take s.received.length).map fun node => some node.data := by
  have hrun : ((exec (step 1) (initial 1 fun _ => 7) oneValue).map
      fun s => s.received) = some [some 7] := by decide
  obtain ⟨s, hs, hreceived⟩ := Option.map_eq_some_iff.mp hrun
  have hiff := delivered_iff_slotHolds (by decide) hs
  refine ⟨s, hs, hiff.1.mpr (by decide), (hiff.2 fun r hr => ?_).mpr (by decide)⟩
  rw [hreceived, List.mem_singleton] at hr
  exact hr ▸ nofun

end CodeSlices.MultiThreadQueue
