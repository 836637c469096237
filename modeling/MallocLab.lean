import MallocLab.Explicit.Contents
import MallocLab.Explicit.Exposure
import MallocLab.Explicit.Frees
import MallocLab.Explicit.Refusals
import MallocLab.Explicit.Sizes
import MallocLab.Explicit.Wrapping
import MallocLab.Seg84.Order
import MallocLab.Seg98.Atomic
import MallocLab.Seg98.Moving
import MallocLab.Implicit.Resume
import MallocLab.BestFit.Search
import MallocLab.BestFit.FirstFit
import MallocLab.Naive.Bump
import MallocLab.Prologue.Calloc
import MallocLab.Driver.Verdict
import MallocLab.Driver.Admits
import MallocLab.Driver.Judgement
import MallocLab.Driver.Scores
import MallocLab.Traces.Balance
import MallocLab.Traces.Random
import MallocLab.Traces.Verdict
import MallocLab.Timing.Fcyc
