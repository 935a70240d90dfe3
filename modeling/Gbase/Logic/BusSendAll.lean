import Gbase.Logic.BusRuns
import Mathlib.Data.List.Nodup

/-!
# Sending to all terminals (`logic/bus.c`)

`bus_send_all` goes through the terminals that the sender knows.  A message to a terminal that there
is no pipe to makes one, and looks at the tables of the head first; terminals that are known from
then on get the message as well.

The number of terminals is read again in each turn of the loop, and one of the calls may have
changed it.  So the list of receivers is not known when the loop starts, and is stated as what the
table begins with at the end.

## Main results

* `sendAllLoop_spec`: the loop is a run of `bus_send`, and comes to an end.
* `bus_send_all_run`: every terminal known at the end gets the message once, if no call fails.
-/

namespace Gbase.Logic.Bus

open Gbase.Lib.Run

/-- The loop of `bus_send_all`, from a terminal of the table on. -/
def sendAllLoop (buf : Option (List UInt8)) : Nat → Nat → BusT → Shm → Option (Int × BusT × Shm)
  | 0, _, _, _ => none
  | fuel + 1, i, bt, shm =>
      if i < bt.tcount then
        if bt.terms i ≠ bt.self then do
          let (ret, bt, shm) ← busSend bt shm buf (bt.terms i)
          if ret ≠ 0 then return (ret, bt, shm)
          sendAllLoop buf fuel (i + 1) bt shm
        else sendAllLoop buf fuel (i + 1) bt shm
      else some (busOk, bt, shm)

/-- `bus_send_all` -/
def busSendAll (bt : BusT) (shm : Shm) (buf : Option (List UInt8)) : Option (Int × BusT × Shm) :=
  sendAllLoop buf (busMaxTerminalCount + 1) 0 bt shm

/-- Some terminals of the table, but the sender. -/
def BusHead.others (head : BusHead) (addr : Int) (i n : Nat) : List Int :=
  ((List.range' i n).map head.terms).filter (· ≠ addr)

/-- The terminals that the sender knows are the first ones of the table. -/
structure Knows (bt : BusT) (head : BusHead) : Prop where
  tcount : bt.tcount ≤ head.tcount
  terms : ∀ i, i < bt.tcount → bt.terms i = head.terms i

/-- What the calls of `bus_send` have done for `n` terminals from a place of the table on, and what
the sender knows then. -/
structure SentAll (head : BusHead) (addr : Int) (i n : Nat) (code : Int) (bt : BusT)
    (results : List BusResult) : Prop where
  knows : Knows bt head
  inside : i + n ≤ head.tcount
  sent : code = busOk → bt.tcount ≤ i + n ∧ ∀ result, result ∈ results → result = .status busOk
  failed : code ≠ busOk → results.getLast? = some (.status code)

section
variable {s : System} {head : BusHead} {queues : Nat → List (List UInt8)} {addr : Int} {bt : BusT}

theorem SystemRepr.knows (h : SystemRepr s head queues) (hBt : s.terminals addr = some bt) :
    Knows bt head := by
  obtain ⟨known, hTerm⟩ := h.terminal hBt
  exact ⟨hTerm.tcount, fun _ hi => hTerm.terms hi⟩

/-- `bus_send`, as a call of a run. -/
theorem SystemRepr.send (h : SystemRepr s head queues) (hBt : s.terminals addr = some bt)
    (buf : Option (List UInt8)) (dest : Int) : ∃ code bt' s' head' queues',
      busSend bt s.shm buf dest = some (code, bt', s'.shm) ∧
      busStep s (.send addr buf dest) = some (.status code, s') ∧
      s'.terminals addr = some bt' ∧ SystemRepr s' head' queues' ∧ Grows head head' := by
  obtain ⟨known, hTerm⟩ := h.terminal hBt
  obtain ⟨code, bt', shm', head', queues', -, hSend, hHead', -, hGrows, -⟩ :=
    busSend_spec h.shared hTerm buf dest
  have hMoved : Does busStep Moved s (.send addr buf dest) :=
    busStep_spec (Or.inr ⟨head, queues, h⟩) trivial
  obtain ⟨result, s', hStep, hInv, -⟩ := hMoved
  have hCall := hStep
  simp only [busStep, hBt, hSend, Option.bind_eq_bind, Option.bind_some, Option.pure_def] at hStep
  cases hStep
  have hSome := Function.update_self addr (some bt') s.terminals
  obtain ⟨head₁, queues₁, h₁⟩ := hInv.repr hSome
  have hSame := h₁.shared.head_eq.symm.trans hHead'.head_eq
  cases hSame
  exact ⟨code, bt', _, head', queues₁, hSend, hCall, hSome, h₁, hGrows⟩

theorem BusHead.others_cons (head : BusHead) (addr : Int) (i n : Nat) :
    head.others addr i (n + 1) =
      if head.terms i = addr then head.others addr (i + 1) n
      else head.terms i :: head.others addr (i + 1) n := by
  rw [others, List.range'_succ, List.map_cons, List.filter_cons]
  by_cases hSelf : head.terms i = addr <;> simp [hSelf, others]

/-- No terminal is among them twice. -/
theorem WellFormed.others_nodup (h : WellFormed head) {i n : Nat} (hInside : i + n ≤ head.tcount) :
    (head.others addr i n).Nodup := by
  apply List.Nodup.filter
  apply List.Nodup.map_on _ List.nodup_range'
  intro j hj k hk hSame
  rw [List.mem_range'_1] at hj hk
  exact h.terms j k (by omega) (by omega) hSame

/-- The loop comes to an end, and is a run of `bus_send`. -/
theorem sendAllLoop_spec (buf : Option (List UInt8)) {fuel i : Nat}
    (h : SystemRepr s head queues) (hBt : s.terminals addr = some bt) (hi : i ≤ head.tcount)
    (hFuel : busMaxTerminalCount < fuel + i) : ∃ code bt' results s' head' queues' n,
      sendAllLoop buf fuel i bt s.shm = some (code, bt', s'.shm) ∧
      run busStep s ((head'.others addr i n).map (BusOp.send addr buf)) = some (results, s') ∧
      s'.terminals addr = some bt' ∧ SystemRepr s' head' queues' ∧ Grows head head' ∧
      SentAll head' addr i n code bt' results := by
  induction fuel generalizing s head queues bt i with
  | zero =>
      have hBound := h.shared.tcount
      omega
  | succ fuel ih =>
      obtain ⟨known, hTerm⟩ := h.terminal hBt
      by_cases hMore : i < bt.tcount
      · have hLess : i < head.tcount := lt_of_lt_of_le hMore hTerm.tcount
        have hHere : bt.terms i = head.terms i := hTerm.terms hMore
        by_cases hSelf : bt.terms i = bt.self
        · -- the sender itself
          obtain ⟨code, bt', results, s', head', queues', n, hLoop, hRun, hBt', h', hGrows, hAll⟩ :=
            ih h hBt (i := i + 1) hLess (by omega)
          have hAddr : head'.terms i = addr := by
            rw [hGrows.terms hLess, ← hHere, hSelf, hTerm.self]
          refine ⟨code, bt', results, s', head', queues', n + 1, ?_, ?_, hBt', h', hGrows, ?_⟩
          · rw [sendAllLoop, if_pos hMore, if_neg (not_not.mpr hSelf), hLoop]
          · rw [BusHead.others_cons, if_pos hAddr, hRun]
          · have hEnd : i + (n + 1) = i + 1 + n := by omega
            exact ⟨hAll.knows, hEnd ▸ hAll.inside, hEnd ▸ hAll.sent, hAll.failed⟩
        · obtain ⟨code, bt₁, s₁, head₁, queues₁, hSend, hStep, hBt₁, h₁, hGrows₁⟩ :=
            h.send hBt buf (bt.terms i)
          have hOther : bt.terms i ≠ addr := hTerm.self ▸ hSelf
          by_cases hOk : code = 0
          · -- the terminal has got the message
            obtain ⟨code', bt', results, s', head', queues', n, hLoop, hRun, hBt', h', hGrows,
              hAll⟩ := ih h₁ hBt₁ (i := i + 1) (hLess.trans_le hGrows₁.tcount_le) (by omega)
            have hDest : head'.terms i = bt.terms i := by
              rw [hGrows.terms (hLess.trans_le hGrows₁.tcount_le), hGrows₁.terms hLess, hHere]
            have hNot : head'.terms i ≠ addr := hDest.trans_ne hOther
            refine ⟨code', bt', .status code :: results, s', head', queues', n + 1, ?_, ?_, hBt',
              h', hGrows₁.trans hGrows, ?_⟩
            · rw [sendAllLoop, if_pos hMore, if_pos hSelf, hSend]
              simp only [Option.bind_eq_bind, Option.bind_some, hOk, ne_eq, not_true_eq_false,
                if_false]
              exact hLoop
            · rw [BusHead.others_cons, if_neg hNot, List.map_cons, hDest]
              exact run_cons hStep hRun
            · have hEnd : i + (n + 1) = i + 1 + n := by omega
              refine ⟨hAll.knows, hEnd ▸ hAll.inside, ?_, ?_⟩
              · intro hAllOk
                obtain ⟨hTcount, hResults⟩ := hAll.sent hAllOk
                rw [hEnd]
                refine ⟨hTcount, ?_⟩
                intro result hIn
                cases hIn with
                | head => rw [hOk]; rfl
                | tail _ hIn => exact hResults result hIn
              · intro hFail
                have hLast := hAll.failed hFail
                rw [List.getLast?_cons, hLast]
                rfl
          · -- the loop ends at a call that fails
            have hDest : head₁.terms i = bt.terms i := by rw [hGrows₁.terms hLess, hHere]
            have hNot : head₁.terms i ≠ addr := hDest.trans_ne hOther
            refine ⟨code, bt₁, [.status code], s₁, head₁, queues₁, 1, ?_, ?_, hBt₁, h₁, hGrows₁,
              h₁.knows hBt₁, hLess.trans_le hGrows₁.tcount_le, fun hZero => absurd hZero hOk,
              fun _ => rfl⟩
            · rw [sendAllLoop, if_pos hMore, if_pos hSelf, hSend]
              simp only [Option.bind_eq_bind, Option.bind_some, ne_eq, hOk, not_false_eq_true,
                if_true]
              rfl
            · rw [BusHead.others_cons, if_neg hNot, List.map_cons, hDest]
              exact run_cons hStep (run_nil s₁)
      · refine ⟨busOk, bt, [], s, head, queues, 0, ?_, rfl, hBt, h, Grows.refl head, h.knows hBt,
          hi, ?_, ?_⟩
        · rw [sendAllLoop, if_neg hMore]
        · intro _
          exact ⟨by omega, fun _ hIn => absurd hIn List.not_mem_nil⟩
        · intro hFail
          exact absurd rfl hFail

end

/-- In every state that a run leads to, `bus_send_all` is a run of `bus_send` to the first terminals
of the table but the sender, one after the other; it goes on up to a call that fails, or else to all
terminals that the sender knows at the end. -/
theorem bus_send_all_run (key : Int) (foreign : Int → Option SegmentT) {ops : List BusOp}
    (hLegal : ∀ op, op ∈ ops → Legal op) :
    ∃ results s, run busStep (busStart key foreign) ops = some (results, s) ∧
      ∀ addr bt buf, s.terminals addr = some bt → ∃ code bt' sent s' head n,
        busSendAll bt s.shm buf = some (code, bt', s'.shm) ∧
        run busStep s ((head.others addr 0 n).map (BusOp.send addr buf)) = some (sent, s') ∧
        s'.terminals addr = some bt' ∧ s'.shm.head = some head ∧ (head.others addr 0 n).Nodup ∧
        SentAll head addr 0 n code bt' sent := by
  obtain ⟨results, s, hRun, hInv⟩ := bus_runs key foreign hLegal
  refine ⟨results, s, hRun, ?_⟩
  intro addr bt buf hBt
  obtain ⟨head, queues, h⟩ := hInv.repr hBt
  obtain ⟨code, bt', sent, s', head', queues', n, hLoop, hSent, hBt', h', -, hAll⟩ :=
    sendAllLoop_spec buf h hBt (Nat.zero_le _)
      (by omega : busMaxTerminalCount < busMaxTerminalCount + 1 + 0)
  exact ⟨code, bt', sent, s', head', n, hLoop, hSent, hBt', h'.shared.head_eq,
    h'.shared.wellFormed.others_nodup hAll.inside, hAll⟩

/-- The first of three terminals sends to both others. -/
theorem bus_send_all_three :
    ∃ results s, run busStep (busStart 1 fun _ => none)
        [.create 1, .create 2, .send 1 (some [7]) 2, .create 3] = some (results, s) ∧
      ∀ addr bt buf, s.terminals addr = some bt → ∃ code bt' sent s' head n,
        busSendAll bt s.shm buf = some (code, bt', s'.shm) ∧
        run busStep s ((head.others addr 0 n).map (BusOp.send addr buf)) = some (sent, s') ∧
        s'.terminals addr = some bt' ∧ s'.shm.head = some head ∧ (head.others addr 0 n).Nodup ∧
        SentAll head addr 0 n code bt' sent :=
  bus_send_all_run 1 (fun _ => none) (by simp [Legal])

end Gbase.Logic.Bus
