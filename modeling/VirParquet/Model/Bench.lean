import VirParquet.Model.Fuse

/-!
# Clients that read a file

The loop of `run_bypass` in `bench.c`, with a buffer size of its own for each read: read at `off`,
go on by the count returned, and stop at a negative count or at one below the buffer size. What is
measured and printed is left out, the bytes in the buffer are kept.
-/

namespace VirParquet.Model

open VirParquet.Found VirParquet.Found.Base64

/-- How the loop of a client ends: with a negative count, with a position that is no longer an
`off_t`, or at the end of the file with the bytes collected. -/
inductive ClientEnd
  | error
  | overflow
  | eof (collected : Bytes)
  deriving DecidableEq, Repr

/-- What `Read` left in a client's buffer: the first `nr` bytes that `Pread` wrote. -/
def received (nr : ℤ) (x : Option Bytes) : Bytes := (x.getD []).take nr.toNat

/-- The loop of a client whose `k`-th read has a buffer of `bufsz k` bytes, from its read `k` at
position `off` with the base in state `s` and `collected` so far, ends with `r`.
Source: `bench.c`, `run_bypass` -/
inductive ClientRuns {σ : Type} (dec : Decoder) (base : RandomAccessFile σ) (fh : FilePtr)
    (bufsz : ℕ → ℕ) : ℕ → ℕ → Bytes → σ → ClientEnd → Prop
  | error {k off : ℕ} {collected : Bytes} {s s' : σ} {nr : ℤ} {x : Option Bytes}
      (hread : ReadReturns dec base fh (bufsz k) off s nr x s') (hnr : nr < 0) :
      ClientRuns dec base fh bufsz k off collected s .error
  | overflow {k off : ℕ} {collected : Bytes} {s s' : σ} {nr : ℤ} {x : Option Bytes}
      (hread : ReadReturns dec base fh (bufsz k) off s nr x s') (hnr : 0 ≤ nr)
      (hoff : 2 ^ 63 ≤ off + nr.toNat) :
      ClientRuns dec base fh bufsz k off collected s .overflow
  | eof {k off : ℕ} {collected : Bytes} {s s' : σ} {nr : ℤ} {x : Option Bytes}
      (hread : ReadReturns dec base fh (bufsz k) off s nr x s') (hnr : 0 ≤ nr)
      (hoff : off + nr.toNat < 2 ^ 63) (hlt : nr.toNat < bufsz k) :
      ClientRuns dec base fh bufsz k off collected s (.eof (collected ++ received nr x))
  | more {k off : ℕ} {collected : Bytes} {s s' : σ} {nr : ℤ} {x : Option Bytes} {r : ClientEnd}
      (hread : ReadReturns dec base fh (bufsz k) off s nr x s') (hnr : 0 ≤ nr)
      (hoff : off + nr.toNat < 2 ^ 63) (hge : bufsz k ≤ nr.toNat)
      (hrest : ClientRuns dec base fh bufsz (k + 1) (off + nr.toNat)
        (collected ++ received nr x) s' r) :
      ClientRuns dec base fh bufsz k off collected s r

end VirParquet.Model
