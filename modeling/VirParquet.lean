import VirParquet.Found.Slice
import VirParquet.Found.Word
import VirParquet.Found.Loop
import VirParquet.Found.Extent
import VirParquet.Found.Base64
import VirParquet.Found.Thrift
import VirParquet.Found.Outcome
import VirParquet.Found.Run
import VirParquet.Found.Interference
import VirParquet.Found.Arena
import VirParquet.Model.File
import VirParquet.Model.FileMap
import VirParquet.Verify.Pread
import VirParquet.Model.Arr
import VirParquet.Model.Format
import VirParquet.Spec.Parquet
import VirParquet.Model.BuildMap
import VirParquet.Verify.Layout
import VirParquet.Verify.BuildMap
import VirParquet.Verify.ParquetFile
import VirParquet.Verify.Consistency
import VirParquet.Verify.Decode
import VirParquet.Verify.Forms
import VirParquet.Verify.Values
import VirParquet.Model.Appended
import VirParquet.Verify.Appended
import VirParquet.Verify.Termination
import VirParquet.Verify.BlockReads
import VirParquet.Model.Vfs
import VirParquet.Model.Fuse
import VirParquet.Spec.Path
import VirParquet.Verify.Header
import VirParquet.Verify.Reader
import VirParquet.Verify.Path
import VirParquet.Spec.Pages
import VirParquet.Verify.Pages
import VirParquet.Verify.Builder
import VirParquet.Model.Bench
import VirParquet.Model.Parser
import VirParquet.Spec.Tree
import VirParquet.Verify.Tree
import VirParquet.Verify.Parser
import VirParquet.Verify.Client
import VirParquet.Spec.Loaded
import VirParquet.Verify.Load
import VirParquet.Verify.Repeats
import VirParquet.Verify.Acceptance
import VirParquet.Model.Session
import VirParquet.Verify.SharedReads
import VirParquet.Verify.Session
import VirParquet.Verify.SessionRuns
import VirParquet.Verify.AnyFile
import VirParquet.Verify.Liveness
import VirParquet.Spec.ReadOnly
import VirParquet.Spec.Mounted
import VirParquet.Verify.Refinement
import VirParquet.Verify.Pipeline
import VirParquet.Verify.Completeness
import VirParquet.Verify.Mounted
import VirParquet.Verify.Initialization
