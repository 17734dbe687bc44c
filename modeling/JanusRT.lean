import JanusRT.Asid
import JanusRT.Doorbell
import JanusRT.AllocExact
import JanusRT.AllocLengths
import JanusRT.Entry
import JanusRT.Truncation
import JanusRT.PriorityQueue
import JanusRT.Windows
import JanusRT.States
import JanusRT.Accounts
import JanusRT.Resumption
import JanusRT.TimeConversion
import JanusRT.Preemption
import JanusRT.Wakeups
import JanusRT.Contention
import JanusRT.TryPush
import JanusRT.Spaces
import JanusRT.AllocAligned
import JanusRT.AllocResize
import JanusRT.PeriodicTimer
import JanusRT.StarWidth
import JanusRT.IsoIntegers
import JanusRT.TrimZeros
import JanusRT.Memcmp
import JanusRT.Irq
import JanusRT.DumpMap
import JanusRT.MemCopy
import JanusRT.Gic
import JanusRT.KeyUpdates
import JanusRT.Translations
import JanusRT.Tlb
import JanusRT.EndToEnd
import JanusRT.AllocObjects
import JanusRT.CacheSync
import JanusRT.Loading
import JanusRT.GicSetup
import JanusRT.Uart
import JanusRT.Console
import JanusRT.SyncReport
