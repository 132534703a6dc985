import Mathlib.Data.Int.Notation
import Wineing.CStringMemory

/-!
# The control record `w_ctrl` and its copy functions

The command, the data buffer and the number of bytes in use, as they are shared
between the threads, and the two functions that copy them between a thread's own
record and the shared one.
-/

namespace Wineing
open CStringMemory

def wineingCtrlCmdInit : ℤ := 4
def wineingCtrlCmdMarketRun : ℤ := 3
def wineingCtrlCmdMarketStop : ℤ := 2
def wineingCtrlCmdShutdown : ℤ := 0

/-- The bytes every `data` buffer is allocated with. -/
def wineingCtrlDefaultDataSize : ℕ := 1024

/-- `w_ctrl`. The memory behind `data` goes on past the allocation, see
`wineingCtrlDefaultDataSize`. -/
structure WCtrl where
  cmd : ℤ
  data : Memory
  size : ℕ

namespace WCtrl

def copyCmd (src dst : WCtrl) : WCtrl := { dst with cmd := src.cmd }

def copySize (src dst : WCtrl) : WCtrl := { dst with size := src.size }

def copyData (src dst : WCtrl) : WCtrl :=
  if 0 < src.size then { dst with data := memcpy dst.data src.data src.size } else dst

@[simp] theorem copyData_cmd (src dst : WCtrl) : (copyData src dst).cmd = dst.cmd := by
  unfold copyData; split <;> rfl

@[simp] theorem copyData_size (src dst : WCtrl) : (copyData src dst).size = dst.size := by
  unfold copyData; split <;> rfl

theorem copyData_data_of_lt (src dst : WCtrl) {k : ℕ} (h : k < src.size) :
    (copyData src dst).data k = src.data k := by
  simp [copyData, Nat.zero_lt_of_lt h, memcpy_of_lt _ _ h]

theorem copyData_data_of_le (src dst : WCtrl) {k : ℕ} (h : src.size ≤ k) :
    (copyData src dst).data k = dst.data k := by
  unfold copyData
  split
  · exact memcpy_of_le _ _ h
  · rfl

/-- The same command, the same size and the same bytes within this size. What lies in
a buffer behind them is not part of the record's value. -/
structure Agrees (a b : WCtrl) : Prop where
  cmd : a.cmd = b.cmd
  size : a.size = b.size
  data : ∀ k < b.size, a.data k = b.data k

theorem Agrees.refl (a : WCtrl) : Agrees a a := ⟨rfl, rfl, fun _ _ => rfl⟩

theorem Agrees.trans {a b c : WCtrl} (h : Agrees a b) (h' : Agrees b c) : Agrees a c :=
  ⟨h.cmd.trans h'.cmd, h.size.trans h'.size,
    fun k hk => (h.data k (h'.size ▸ hk)).trans (h'.data k hk)⟩

/-- The data bytes are copied last: they complete the copy. -/
theorem copyData_agrees {src dst : WCtrl} (hcmd : dst.cmd = src.cmd) (hsize : dst.size = src.size) :
    Agrees (copyData src dst) src :=
  ⟨by simpa using hcmd, by simpa using hsize, fun _ hk => copyData_data_of_lt src dst hk⟩

end WCtrl

open WCtrl

/-- `_copy_local_to_shared(t, g)`: the shared record afterwards. -/
def copyLocalToShared (t g : WCtrl) : WCtrl := copyData t (copySize t (copyCmd t g))

/-- `_copy_shared_to_local(t, g)`: the local record afterwards. -/
def copySharedToLocal (t g : WCtrl) : WCtrl := copyData g (copySize g (copyCmd g t))

end Wineing
